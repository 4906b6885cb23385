/-
  When the index of a segment outgrows its file.

  `calculate_index_size` divides the size of the data by the size of a header, but an index entry is
  eight bytes wide: the index file has room for one message in 96 bytes of data, while a frame may
  be as short as twelve bytes.  `segment_write` looks at the data area only.  So a sequence of
  writes gets past the end of the index file exactly when it is accepted once more often than the
  file has entries (`slots_inside_iff`), and whether it is can be read off the lengths of the
  messages and the ends of their frames (`mem_claimedSlots`).

  A comment in `segment_open` says that the index will contain one entry for each entry in the
  segment, and one in `calculate_index_size` that this implements the `ceil` function.  For a page
  of 4096 bytes the file has 341 bytes, which is room for 42 entries and five bytes more.

  A slot is claimed by each call that is accepted (`claimedSlots`), in order, so that the claimed
  slots are an initial part of the numbers.  Which calls are accepted depends on two things only:

    * the messages up to there are in the data together, with room for an end-of-segment frame;
    * none of those in front ends like such a frame, since the segment counts as sealed behind it.

  `OutgrowsIndex` states this for the first message that has no entry, as a condition on the
  payloads.  It mentions no function that writes.

  What happens behind the end of the index file is not a part of the model; the theorem says when
  the code gets there.
-/
import Mqlog.SegmentOpen

namespace Mqlog

open Lib.Mem Lib.Records

/-- The slots of the index that a sequence of writes claims, one for each call that returns
    `>= 0`. -/
def claimedSlots : Segment → List Buf → List Nat
  | _, [] => []
  | sgm, buf :: bufs =>
    let (rc, sgm') := segmentWrite sgm buf
    if 0 ≤ rc then sgm.wOffset.index :: claimedSlots sgm' bufs else claimedSlots sgm' bufs

/-- The first `indexCapacity size + 1` messages fit into the data of a segment one after another,
    and none of them but the last ends like an end-of-segment frame. -/
def OutgrowsIndex (size : Nat) (bufs : List Buf) : Prop :=
  indexCapacity size < bufs.length ∧
  ((bufs.take (indexCapacity size + 1)).map fun buf => headerSize + buf.1.length).sum +
    headerSize ≤ size ∧
  ∀ buf ∈ bufs.take (indexCapacity size), endsLikeEos buf = false

/-- Nothing is accepted by a segment that counts as sealed. -/
theorem claimedSlots_marked {sgm : Segment} (h : markedEos sgm = true) (bufs : List Buf) :
    claimedSlots sgm bufs = [] := by
  induction bufs with
  | nil => rfl
  | cons buf bufs ih =>
    rw [claimedSlots, segmentWrite_marked h]
    exact ih

section Claimed

variable {sgm : Segment} {ps : List Buf} {buf : Buf}

theorem claimedSlots_full (h : Holds sgm ps []) (hlook : looksSealed ps = false)
    (hfull : sgm.size < (image frame ps).length + 2 * headerSize + buf.1.length) :
    claimedSlots sgm (buf :: bufs) = [] := by
  have hsealed : Holds (sgm.holding ps eosFrame) ps eosFrame :=
    Holds.holding h.fits h.small (.inr rfl)
  rw [claimedSlots, h.segmentWrite_full hlook buf hfull]
  exact claimedSlots_marked (hsealed.markedEos_sealed rfl) bufs

theorem claimedSlots_fits (h : Holds sgm ps []) (hlook : looksSealed ps = false)
    (hfits : (image frame ps).length + 2 * headerSize + buf.1.length ≤ sgm.size) :
    claimedSlots sgm (buf :: bufs) =
      ps.length :: claimedSlots (sgm.holding (ps ++ [buf]) []) bufs := by
  rw [claimedSlots, h.segmentWrite_fits hlook buf hfits, h.count]
  exact if_pos (Int.natCast_nonneg _)

/-- **Which slots are claimed**: the one `j` behind the present messages is, when the messages up to
    there are in the segment together and none before it makes the segment look sealed. -/
theorem mem_claimedSlots {j : Nat} (bufs : List Buf) (h : Holds sgm ps []) :
    ps.length + j ∈ claimedSlots sgm bufs ↔
      j < bufs.length ∧ (image frame (ps ++ bufs.take (j + 1))).length + headerSize ≤ sgm.size ∧
      looksSealed ps = false ∧ ∀ buf ∈ bufs.take j, endsLikeEos buf = false := by
  have h12 : headerSize = 12 := rfl
  -- along the sequence, with the message just written moved over to `ps`
  induction bufs generalizing sgm ps j with
  | nil => exact ⟨fun hmem => absurd hmem List.not_mem_nil,
      fun hj => absurd hj.1 (Nat.not_lt_zero j)⟩
  | cons buf bufs ih =>
    have hsnoc : ∀ n, ps ++ (buf :: bufs).take (n + 1) = ps ++ [buf] ++ bufs.take n := fun n => by
      rw [List.take_succ_cons, List.append_assoc, List.singleton_append]
    have hlen := length_image_snoc ps buf
    cases hlook : looksSealed ps with
    | true =>
      rw [claimedSlots_marked (h.markedEos_eq.trans hlook)]
      exact ⟨fun hmem => absurd hmem List.not_mem_nil, fun hj => absurd hj.2.2.1 (by decide)⟩
    | false =>
      rcases Nat.lt_or_ge sgm.size ((image frame ps).length + 2 * headerSize + buf.1.length)
        with hfull | hfits
      · rw [claimedSlots_full h hlook hfull]
        refine ⟨fun hmem => absurd hmem List.not_mem_nil, fun hj => ?_⟩
        have hsize := hj.2.1
        rw [hsnoc, image_append, List.length_append] at hsize
        omega
      · rw [claimedSlots_fits h hlook hfits, List.mem_cons]
        cases j with
        | zero =>
          refine ⟨fun _ => ⟨Nat.succ_pos _, ?_, rfl, fun b hb => absurd hb List.not_mem_nil⟩,
            fun _ => .inl rfl⟩
          rw [hsnoc, List.take_zero, List.append_nil]
          omega
        | succ j =>
          have hnext := ih (j := j) (h.holding_snoc hfits)
          rw [looksSealed_snoc, List.length_append, List.length_singleton,
            show ps.length + 1 + j = ps.length + (j + 1) by omega] at hnext
          refine (or_congr_right hnext).trans ?_
          rw [hsnoc, List.length_cons, List.take_succ_cons, List.forall_mem_cons]
          constructor
          · rintro (hj | ⟨hj, hsize, hbuf, hrest⟩)
            · omega
            · exact ⟨Nat.succ_lt_succ hj, hsize, rfl, hbuf, hrest⟩
          · rintro ⟨hj, hsize, -, hbuf, hrest⟩
            exact .inr ⟨Nat.lt_of_succ_lt_succ hj, hsize, hbuf, hrest⟩

end Claimed

/-- A slot claimed from a new segment. -/
theorem mem_claimedSlots_fresh {baseOffset size flags i : Nat} {bufs : List Buf}
    (h12 : headerSize ≤ size) (hsmall : size < 2 ^ 32) :
    i ∈ claimedSlots (Segment.fresh baseOffset size flags) bufs ↔
      i < bufs.length ∧ (image frame (bufs.take (i + 1))).length + headerSize ≤ size ∧
      ∀ buf ∈ bufs.take i, endsLikeEos buf = false := by
  have hmem := mem_claimedSlots bufs (j := i) (holds_fresh baseOffset flags h12 hsmall)
  rw [List.length_nil, Nat.zero_add] at hmem
  refine hmem.trans ⟨fun ⟨hi, hsize, _, hbufs⟩ => ⟨hi, hsize, hbufs⟩,
    fun ⟨hi, hsize, hbufs⟩ => ⟨hi, hsize, rfl, hbufs⟩⟩

/-- **The entries of the accepted messages are all inside the index file** if and only if the
    messages do not outgrow the index. -/
theorem slots_inside_iff {page : PageSize} {baseOffset size flags : Nat} (hsmall : size < 2 ^ 32)
    {sgm : Segment} {files : SegmentFiles}
    (hopen : segmentOpen page .ok ⟨none, none⟩ baseOffset size flags = (0, some sgm, files))
    (bufs : List Buf) :
    (∀ i ∈ claimedSlots sgm bufs, (i + 1) * indexEntrySize ≤ calculateIndexSize size) ↔
      ¬ OutgrowsIndex size bufs := by
  obtain ⟨h0, hmod, rfl, -⟩ := segmentOpen_new_size hopen
  have h4096 := page.le_of_mod h0 hmod
  have h12 : headerSize ≤ size := Nat.le_trans (by decide) h4096
  have hmem : ∀ i, i ∈ claimedSlots (Segment.fresh baseOffset size flags) bufs ↔ _ := fun i =>
    mem_claimedSlots_fresh h12 hsmall
  rw [OutgrowsIndex, ← length_image, ← hmem]
  simp only [slot_inside_iff]
  constructor
  · intro hall hcap
    exact Nat.lt_irrefl _ (hall _ hcap)
  · intro hcap i hi
    rw [← Nat.not_le]
    intro hle
    -- a slot behind the file is claimed only after the first one behind it
    obtain ⟨hlen, hsize, hbufs⟩ := (hmem i).mp hi
    have hsub : bufs.take (indexCapacity size) <+: bufs.take i := List.take_prefix_take_left hle
    have himage := start_mono (f := frame) (l := bufs)
      (show indexCapacity size + 1 ≤ i + 1 by omega)
    rw [start, start] at himage
    exact hcap ((hmem _).mpr ⟨by omega, by omega, fun buf hbuf => hbufs buf (hsub.subset hbuf)⟩)

/-- In a segment of one page 42 messages of one byte fill the index, and a message of 4000 bytes,
    for which the data has no room left, leaves it where it belongs. -/
theorem slots_inside_iff_of_full_index :
    let bufs := List.replicate 42 ⟨[0x61], by decide⟩ ++ [bytes 4000 0x62 (by decide)]
    41 ∈ claimedSlots (Segment.fresh 0 4096 0) bufs ∧ ¬ OutgrowsIndex 4096 bufs ∧
      ∀ i ∈ claimedSlots (Segment.fresh 0 4096 0) bufs, (i + 1) * indexEntrySize ≤
          calculateIndexSize 4096 := by
  intro bufs
  have hlast : 41 ∈ claimedSlots (Segment.fresh 0 4096 0) bufs := by
    rw [mem_claimedSlots_fresh (by decide) (by decide), length_image]
    exact ⟨by decide, by decide +kernel, by decide +kernel⟩
  have hfew : ¬ OutgrowsIndex 4096 bufs := fun h => absurd h.2.1 (by decide +kernel)
  have hopen := segmentOpen_new 0 0 (by decide) (show 4096 % page4096.bytes = 0 by decide)
  exact ⟨hlast, hfew, (slots_inside_iff (by decide) hopen bufs).mpr hfew⟩

/-- A segment of one page takes 43 messages of one byte, and its index file has 341 bytes. -/
theorem slot_outside_of_one_page :
    ∃ sgm files, segmentOpen page4096 .ok ⟨none, none⟩ 0 4096 0 = (0, some sgm, files) ∧
      42 ∈ claimedSlots sgm (List.replicate 43 ⟨[0x61], by decide⟩) ∧
      ¬ (42 + 1) * indexEntrySize ≤ calculateIndexSize 4096 := by
  refine ⟨_, _, segmentOpen_new _ _ (by decide) (by decide), ?_, by decide⟩
  rw [mem_claimedSlots_fresh (by decide) (by decide), List.take_replicate, length_image,
    List.map_replicate]
  refine ⟨by decide, by decide, fun buf hbuf => ?_⟩
  rw [List.take_replicate] at hbuf
  rw [(List.mem_replicate.mp hbuf).2]
  decide

end Mqlog
