/-
  What a segment holds, and what `segment_open`, `segment_write` and `segment_read` do to it.

  A segment of one writer is an append-only file: the frames of its messages from position 0 on, the
  table of their positions in the index, and at most one end-of-segment frame behind them.
  `Holds sgm ps tail` says so of the messages `ps`.  On such a segment

  * `segmentWrite` appends a message that fits (`segmentWrite_fits`), seals the segment when it does
    not (`segmentWrite_full`), and refuses everything afterwards (`segmentWrite_marked`);
  * `segmentRead` gives back every message below the read boundary (`Holds.reads`);
  * `segmentOpen` finds the write offset again (`Holds.findWOffsetPair_eq`).

  `marked_eos` looks at the last twelve bytes before the write offset, whatever they are.  When they
  belong to a payload they may happen to look like an end-of-segment header (`endsLikeEos`); then
  the segment counts as sealed although nothing sealed it.

  The frames are records in the sense of `Lib.Records`: `image frame ps` are the bytes of the
  messages in a row, `start frame ps i` is the position of the `i`-th of them, and the memory stores
  them (`Holds.stored`).  The invariant is an equation for each field of the segment, as the
  contents are determined by the messages (`Segment.holding`), so that two segments which hold the
  same differ in their addresses only.

  A segment that was sealed, closed and opened again is a case of its own: the write offset is in
  front of the end-of-segment frame, which is still in the file.  `Holds` has both positions; the
  lemmas about a write are stated for what is behind the messages, whether the write offset has
  passed it or not (`segmentWrite_appends`, `segmentWrite_seals`), and those for a segment that was
  not reopened follow.
-/
import Mqlog.Lib.Records
import Mqlog.Segment

namespace Mqlog

open Lib.Mem Lib.Records

/-! ## Frames in a row -/

/-- A frame has at least a header. -/
theorem headerSize_le_frame (buf : Buf) : headerSize ≤ (frame buf).length := by
  rw [length_frame]
  exact Nat.le_add_right ..

/-- The frames together have the sizes of the payloads, and a header each. -/
theorem length_image (ps : List Buf) :
    (image frame ps).length = (ps.map fun buf => headerSize + buf.1.length).sum := by
  rw [image, List.length_flatMap]
  exact congrArg List.sum (List.map_congr_left fun buf _ => length_frame buf)

/-- One frame more. -/
theorem length_image_snoc (ps : List Buf) (buf : Buf) :
    (image frame (ps ++ [buf])).length = (image frame ps).length + headerSize + buf.1.length := by
  rw [image_snoc, List.length_append, length_frame, Nat.add_assoc]

/-- Every message but the first starts behind position 0. -/
theorem start_pos {ps : List Buf} {k : Nat} (hk : k < ps.length) (h0 : k ≠ 0) :
    0 < start frame ps k := by
  have hle := mul_le_start headerSize_le_frame (Nat.le_of_lt hk)
  have hpos : 0 < headerSize * k := Nat.mul_pos (by decide) (Nat.pos_of_ne_zero h0)
  omega

/-- The last twelve bytes of the frame start like an end-of-segment header. -/
def endsLikeEos (buf : Buf) : Bool :=
  hdrFlags (padded 0 (frame buf)) buf.1.length = headerFlagsEos

/-- The last message, if there is one, ends like an end-of-segment frame. -/
def looksSealed (ps : List Buf) : Bool := (ps.getLast?.map endsLikeEos).getD false

@[simp] theorem looksSealed_nil : looksSealed [] = false := rfl

@[simp] theorem looksSealed_snoc (ps : List Buf) (buf : Buf) :
    looksSealed (ps ++ [buf]) = endsLikeEos buf := by
  rw [looksSealed, List.getLast?_concat]
  rfl

/-- The flags of a header behind other bytes. -/
theorem hdrFlags_append (l r : List UInt8) (i : Nat) :
    hdrFlags (padded 0 (l ++ r)) (l.length + i) = hdrFlags (padded 0 r) i := by
  rw [hdrFlags, hdrFlags, get16, get16, padded_append_add, Nat.add_assoc, padded_append_add]

/-- The checksum of an end-of-segment frame in fresh memory stays zero. -/
theorem padded_eosFrame (l : List UInt8) :
    padded 0 (l ++ (le16 headerFlagsEos ++ [headerVersion, headerPad] ++ le32 headerSize)) =
      padded 0 (l ++ eosFrame) := by
  have hzero : l ++ eosFrame = l ++ (le16 headerFlagsEos ++ [headerVersion, headerPad] ++
      le32 headerSize) ++ List.replicate 4 0 := by
    rw [List.append_assoc]
    rfl
  rw [hzero, padded_append_replicate]

/-! ## The invariant -/

/-- The segment with the messages `ps` and the bytes `tail` behind them, written up to there. -/
def Segment.holding (sgm : Segment) (ps : List Buf) (tail : List UInt8) : Segment :=
  { sgm with
    buffer := padded 0 (image frame ps ++ tail)
    index := padded 0 (starts frame ps)
    wOffset := ⟨ps.length, (image frame ps).length + tail.length⟩ }

/-- The segment holds the messages `ps`, and behind them `tail`: nothing, or the end-of-segment
    frame.  There is room for that frame.  A segment reopened after it was sealed has its write
    offset in front of the end-of-segment frame. -/
structure Holds (sgm : Segment) (ps : List Buf) (tail : List UInt8) : Prop where
  buffer : sgm.buffer = padded 0 (image frame ps ++ tail)
  index : sgm.index = padded 0 (starts frame ps)
  count : sgm.wOffset.index = ps.length
  le_written : (image frame ps).length ≤ sgm.wOffset.data
  written_le : sgm.wOffset.data ≤ (image frame ps).length + tail.length
  tail_eq : tail = [] ∨ tail = eosFrame
  fits : (image frame ps).length + headerSize ≤ sgm.size
  small : sgm.size < 2 ^ 32

namespace Holds

variable {sgm : Segment} {ps : List Buf} {tail : List UInt8}

/-- What a segment is made to hold it holds. -/
theorem holding (hfits : (image frame ps).length + headerSize ≤ sgm.size)
    (hsmall : sgm.size < 2 ^ 32) (htail : tail = [] ∨ tail = eosFrame) :
    Holds (sgm.holding ps tail) ps tail where
  buffer := rfl
  index := rfl
  count := rfl
  le_written := Nat.le_add_right ..
  written_le := Nat.le_refl _
  tail_eq := htail
  fits := hfits
  small := hsmall

/-- The messages are stored as records. -/
theorem stored (h : Holds sgm ps tail) : Stored frame sgm.buffer sgm.index ps := by
  have hst := stored_padded (f := frame) 0 0 ps tail []
  rwa [List.append_nil, ← h.buffer, ← h.index] at hst

/-- What is behind the messages is no longer than a header. -/
theorem tail_length (h : Holds sgm ps tail) : tail.length ≤ headerSize := by
  rcases h.tail_eq with rfl | rfl
  · exact Nat.zero_le _
  · exact Nat.le_refl _

/-- There are fewer messages than bytes. -/
theorem count_le (h : Holds sgm ps tail) : headerSize * ps.length + headerSize ≤ sgm.size :=
  Nat.le_trans (Nat.add_le_add_right (mul_length_le_image headerSize_le_frame ps) _) h.fits

/-- An unsealed segment is written up to its last message. -/
theorem written_eq (h : Holds sgm ps []) : sgm.wOffset.data = (image frame ps).length :=
  Nat.le_antisymm h.written_le h.le_written

end Holds

/-! ## Writing -/

/-- The claims of one thread succeed. -/
theorem claim_self (sgm : Segment) (new : OffsetPair) :
    claim sgm sgm.wOffset new = (0, { sgm with wOffset := new }) := if_pos rfl

/-- **What a write can do**, on any segment whose write offset is inside it. -/
theorem segmentWrite_cases (sgm : Segment) (buf : Buf) (hd : sgm.wOffset.data ≤ sgm.size)
    (hsmall : sgm.size < 2 ^ 32) :
    (markedEos sgm = true ∧ segmentWrite sgm buf = (ELEOS, sgm)) ∨
    (markedEos sgm = false ∧
      sgm.size < sgm.wOffset.data + 2 * headerSize + buf.1.length ∧
      segmentWrite sgm buf = (ELEOS,
        { sgm with
          wOffset := ⟨sgm.wOffset.index, (sgm.wOffset.data + headerSize) % 2 ^ 32⟩
          buffer := store sgm.buffer sgm.wOffset.data
            (le16 headerFlagsEos ++ [headerVersion, headerPad] ++ le32 headerSize) })) ∨
    (markedEos sgm = false ∧
      sgm.wOffset.data + 2 * headerSize + buf.1.length ≤ sgm.size ∧
      segmentWrite sgm buf = ((buf.1.length : Int),
        { sgm with
          wOffset := ⟨(sgm.wOffset.index + 1) % 2 ^ 32,
            sgm.wOffset.data + headerSize + buf.1.length⟩
          buffer := store sgm.buffer sgm.wOffset.data (frame buf)
          index := store sgm.index sgm.wOffset.index [sgm.wOffset.data] })) := by
  have hlen := buf.2
  have h12 : headerSize = 12 := rfl
  have hframe : (headerSize + buf.1.length) % 2 ^ 64 = headerSize + buf.1.length :=
    Nat.mod_eq_of_lt (by omega)
  have hspace : (sgm.size + (2 ^ 64 - sgm.wOffset.data)) % 2 ^ 64 =
      sgm.size - sgm.wOffset.data := by
    omega
  have htwo : (headerSize + (headerSize + buf.1.length)) % 2 ^ 64 =
      2 * headerSize + buf.1.length := by omega
  by_cases hmark : markedEos sgm = true
  · exact .inl ⟨hmark, if_pos hmark⟩
  · right
    rw [segmentWrite, if_neg hmark]
    simp only [hframe, hspace, htwo]
    rw [Bool.not_eq_true] at hmark
    by_cases hfull : sgm.size - sgm.wOffset.data < 2 * headerSize + buf.1.length
    · rw [if_pos hfull]
      refine .inl ⟨hmark, by omega, ?_⟩
      simp only [markEos, claim, if_true, ne_eq, not_true, if_false, store_header_head]
    · rw [if_neg hfull]
      have hmod : (sgm.wOffset.data + (headerSize + buf.1.length)) % 2 ^ 32 =
          sgm.wOffset.data + headerSize + buf.1.length := by omega
      refine .inr ⟨hmark, by omega, ?_⟩
      simp only [claim, if_true, ne_eq, not_true, if_false, hmod, store_header,
        toSsize_of_lt buf.2]
      -- the payload is stored before its header
      rw [store_comm (Or.inr (by rw [length_headerBytes])),
        store_append (by rw [length_headerBytes]), frame]

/-- A write is refused when the bytes in front of the write offset look like an end-of-segment
    frame. -/
theorem segmentWrite_marked {sgm : Segment} (h : markedEos sgm = true) (buf : Buf) :
    segmentWrite sgm buf = (ELEOS, sgm) := if_pos h

/-- The stores of `mark_eos` mark the segment. -/
theorem markedEos_store {sgm : Segment} {m : Nat → UInt8} {d : Nat}
    (hw : sgm.wOffset.data = d + headerSize)
    (hbuffer : sgm.buffer =
      store m d (le16 headerFlagsEos ++ [headerVersion, headerPad] ++ le32 headerSize)) :
    markedEos sgm = true := by
  have hflags : hdrFlags sgm.buffer d = headerFlagsEos := by
    rw [hbuffer, List.append_assoc]
    exact get16_of_load (load_store_init (by rw [length_le16])) (by decide)
  rw [markedEos, hw, if_neg (by omega), Nat.add_sub_cancel, hflags]
  rfl

namespace Holds

variable {sgm : Segment} {ps : List Buf} {tail : List UInt8}

/-- The write offset is inside the segment. -/
theorem written_le_size (h : Holds sgm ps tail) : sgm.wOffset.data ≤ sgm.size := by
  have hw := h.written_le
  have ht := h.tail_length
  have hf := h.fits
  omega

/-- `marked_eos` reads the end of the last frame when the segment is written up to there. -/
theorem markedEos_written (h : Holds sgm ps tail)
    (hw : sgm.wOffset.data = (image frame ps).length) : markedEos sgm = looksSealed ps := by
  rw [markedEos, hw, h.buffer]
  rcases List.eq_nil_or_concat ps with rfl | ⟨qs, p, rfl⟩
  · rfl
  · have hlen := length_image_snoc qs p
    have h12 : headerSize = 12 := rfl
    rw [List.concat_eq_append, if_neg (by omega), looksSealed_snoc,
      show (image frame (qs ++ [p])).length - headerSize = (image frame qs).length + p.1.length by
        omega, image_snoc, List.append_assoc, hdrFlags_append, endsLikeEos]
    have hbyte : ∀ i, i < 2 → padded 0 (frame p ++ tail) (p.1.length + i) =
        padded 0 (frame p) (p.1.length + i) := fun i hi =>
      padded_append_of_lt (by rw [length_frame]; omega)
    rw [hdrFlags, hdrFlags, get16_congr hbyte]

/-- An unsealed segment counts as sealed when its last message ends like an end-of-segment frame. -/
theorem markedEos_eq (h : Holds sgm ps []) : markedEos sgm = looksSealed ps :=
  h.markedEos_written h.written_eq

/-- The header behind the messages of a sealed segment. -/
theorem headerAt_eos (h : Holds sgm ps eosFrame) :
    HeaderAt sgm.buffer (image frame ps).length headerFlagsEos headerSize 0 := by
  rw [HeaderAt, h.buffer]
  have hload := load_padded (z := 0) (l := image frame ps) (s := eosFrame) (r := []) rfl rfl
  rwa [List.append_nil] at hload

/-- A sealed segment counts as one. -/
theorem markedEos_sealed (h : Holds sgm ps eosFrame)
    (hw : sgm.wOffset.data = (image frame ps).length + headerSize) : markedEos sgm = true := by
  rw [markedEos, hw, if_neg (by omega), Nat.add_sub_cancel, h.headerAt_eos.flags_eq (by decide)]
  rfl

/-- What is behind the messages is stored over them. -/
theorem buffer_eq_store (h : Holds sgm ps tail) :
    sgm.buffer = store (padded 0 (image frame ps)) (image frame ps).length tail := by
  rw [store_padded rfl]
  exact h.buffer

/-- A message that does not fit seals the segment, also where it was sealed before it was opened. -/
theorem segmentWrite_seals (h : Holds sgm ps tail)
    (hw : sgm.wOffset.data = (image frame ps).length) (hlook : looksSealed ps = false) (buf : Buf)
    (hfull : sgm.size < (image frame ps).length + 2 * headerSize + buf.1.length) :
    segmentWrite sgm buf = (ELEOS, sgm.holding ps eosFrame) := by
  have hmark := h.markedEos_written hw
  have h12 : headerSize = 12 := rfl
  have hf := h.fits
  have hs := h.small
  have hbuffer : store sgm.buffer (image frame ps).length
      (le16 headerFlagsEos ++ [headerVersion, headerPad] ++ le32 headerSize) =
        padded 0 (image frame ps ++ eosFrame) := by
    rw [h.buffer_eq_store]
    rcases h.tail_eq with rfl | rfl
    · rw [store_nil, store_padded rfl, padded_eosFrame]
    · rw [eosFrame, headerBytes, store_prefix rfl, store_padded rfl]
  rcases segmentWrite_cases sgm buf h.written_le_size h.small with ⟨hm, -⟩ | ⟨-, -, heq⟩ |
    ⟨-, hle, -⟩
  · rw [hmark, hlook] at hm
    cases hm
  · rw [heq, hw, Nat.mod_eq_of_lt (by omega), h.count, hbuffer, Segment.holding, h.index,
      length_eosFrame]
  · rw [hw] at hle
    omega

/-- A message that fits is appended, over an end-of-segment frame if there is one. -/
theorem segmentWrite_appends (h : Holds sgm ps tail)
    (hw : sgm.wOffset.data = (image frame ps).length) (hlook : looksSealed ps = false) (buf : Buf)
    (hfits : (image frame ps).length + 2 * headerSize + buf.1.length ≤ sgm.size) :
    segmentWrite sgm buf = ((buf.1.length : Int), sgm.holding (ps ++ [buf]) []) := by
  have hmark := h.markedEos_written hw
  have h12 : headerSize = 12 := rfl
  have hc : 12 * ps.length + 12 ≤ sgm.size := h.count_le
  have hs := h.small
  have hcovered : tail.length ≤ (frame buf).length :=
    Nat.le_trans h.tail_length (headerSize_le_frame buf)
  rcases segmentWrite_cases sgm buf h.written_le_size h.small with ⟨hm, -⟩ | ⟨-, hlt, -⟩ |
    ⟨-, -, heq⟩
  · rw [hmark, hlook] at hm
    cases hm
  · rw [hw] at hlt
    omega
  · rw [heq, hw, Nat.mod_eq_of_lt (by rw [h.count]; omega), h.count, h.buffer_eq_store,
      store_covered hcovered, h.index, store_padded rfl, store_padded (by rw [length_starts]),
      ← image_snoc, ← starts_snoc, Segment.holding, List.append_nil, ← length_image_snoc,
      List.length_append]
    rfl

/-- A message that does not fit seals the segment. -/
theorem segmentWrite_full (h : Holds sgm ps []) (hlook : looksSealed ps = false) (buf : Buf)
    (hfull : sgm.size < (image frame ps).length + 2 * headerSize + buf.1.length) :
    segmentWrite sgm buf = (ELEOS, sgm.holding ps eosFrame) :=
  h.segmentWrite_seals h.written_eq hlook buf hfull

/-- A message that fits is appended. -/
theorem segmentWrite_fits (h : Holds sgm ps []) (hlook : looksSealed ps = false) (buf : Buf)
    (hfits : (image frame ps).length + 2 * headerSize + buf.1.length ≤ sgm.size) :
    segmentWrite sgm buf = ((buf.1.length : Int), sgm.holding (ps ++ [buf]) []) :=
  h.segmentWrite_appends h.written_eq hlook buf hfits

/-- What a segment holds after a message that fits. -/
theorem holding_snoc (h : Holds sgm ps tail) {buf : Buf}
    (hfits : (image frame ps).length + 2 * headerSize + buf.1.length ≤ sgm.size) :
    Holds (sgm.holding (ps ++ [buf]) []) (ps ++ [buf]) [] :=
  holding (by rw [length_image_snoc]; omega) h.small (.inl rfl)

end Holds

/-- The outcomes of a write behind the last message: a segment that was not sealed, or was opened
    again. -/
theorem Holds.segmentWrite_behind {sgm : Segment} {ps : List Buf} {tail : List UInt8}
    (h : Holds sgm ps tail) (hw : sgm.wOffset.data = (image frame ps).length) (buf : Buf) :
    segmentWrite sgm buf = (ELEOS, sgm) ∨
    segmentWrite sgm buf = (ELEOS, sgm.holding ps eosFrame) ∨
    ((image frame ps).length + 2 * headerSize + buf.1.length ≤ sgm.size ∧
      segmentWrite sgm buf = ((buf.1.length : Int), sgm.holding (ps ++ [buf]) [])) := by
  cases hlook : looksSealed ps with
  | true => exact .inl (segmentWrite_marked ((h.markedEos_written hw).trans hlook) buf)
  | false =>
    rcases Nat.lt_or_ge sgm.size ((image frame ps).length + 2 * headerSize + buf.1.length)
      with hfull | hfits
    · exact .inr (.inl (h.segmentWrite_seals hw hlook buf hfull))
    · exact .inr (.inr ⟨hfits, h.segmentWrite_appends hw hlook buf hfits⟩)

/-- The outcomes of a write to a segment that was not reopened. -/
theorem Holds.segmentWrite_outcome {sgm : Segment} {ps : List Buf} {tail : List UInt8}
    (h : Holds sgm ps tail) (hw : sgm.wOffset.data = (image frame ps).length + tail.length)
    (buf : Buf) :
    segmentWrite sgm buf = (ELEOS, sgm) ∨
    (tail = [] ∧ segmentWrite sgm buf = (ELEOS, sgm.holding ps eosFrame)) ∨
    (tail = [] ∧ (image frame ps).length + 2 * headerSize + buf.1.length ≤ sgm.size ∧
      segmentWrite sgm buf = ((buf.1.length : Int), sgm.holding (ps ++ [buf]) [])) := by
  rcases h.tail_eq with rfl | rfl
  · rcases h.segmentWrite_behind h.written_eq buf with heq | heq | ⟨hfits, heq⟩
    · exact .inl heq
    · exact .inr (.inl ⟨rfl, heq⟩)
    · exact .inr (.inr ⟨rfl, hfits, heq⟩)
  · exact .inl (segmentWrite_marked (h.markedEos_sealed hw) buf)

/-! ## Reading -/

/-- The boundary of `segment_read`: what is written, or what is synced. -/
def readBoundary (sgm : Segment) : Nat :=
  if sgm.flags &&& sgmRdcmt = sgmRdcmt then sgm.sOffset.data else sgm.wOffset.data

/-- `segment_read` returns the length of the message, and a frame whose buffer is its bytes. -/
def Reads (sgm : Segment) (relativeOffset : Nat) (buf : Buf) : Prop :=
  ∃ hdr pos, segmentRead sgm relativeOffset = ((buf.1.length : Int), ⟨some hdr, some pos⟩) ∧
    load sgm.buffer pos buf.1.length = buf.1

/-- Nothing is read behind the write offset. -/
theorem segmentRead_unwritten {sgm : Segment} {k : Nat} (hk : sgm.wOffset.index ≤ k) :
    segmentRead sgm k = (ELNORD, ⟨none, none⟩) := if_pos hk

/-- The header and the payload of a stored message. -/
theorem stored_message {m : Nat → UInt8} {t : Nat → Nat} {ps : List Buf} (h : Stored frame m t ps)
    {k : Nat} (hk : k < ps.length) :
    HeaderAt m (start frame ps k) headerFlagsReady (headerSize + ps[k].1.length)
        (crc32 0 ps[k].1).toNat ∧
      load m (start frame ps k + headerSize) ps[k].1.length = ps[k].1 := by
  have hload := h.load_record hk
  rw [length_frame, frame, load_add] at hload
  exact List.append_inj hload (by rw [length_load, length_headerBytes])

/-- A stored message below the read boundary is found at its frame. -/
theorem segmentRead_message {sgm : Segment} {ps : List Buf}
    (h : Stored frame sgm.buffer sgm.index ps) {k : Nat} (hk : k < ps.length)
    (hcount : k < sgm.wOffset.index) (hbound : start frame ps k < readBoundary sgm)
    (hsmall : (image frame ps).length < 2 ^ 32) :
    segmentRead sgm k = ((ps[k].1.length : Int),
      ⟨some (start frame ps k), some (start frame ps k + headerSize)⟩) := by
  have hhdr := (stored_message h hk).1
  have hend := start_add_le_image (f := frame) hk
  rw [length_frame] at hend
  have hlen := ps[k].2
  have hflags := hhdr.flags_eq (by decide)
  have hsize := hhdr.size_eq (by omega)
  have hpos : ¬ (k ≠ 0 ∧ start frame ps k = 0) := fun hz => by
    have := start_pos hk hz.1
    omega
  have hpayload : framePayloadSize sgm.buffer (start frame ps k) = ps[k].1.length := by
    rw [framePayloadSize, hsize]
    have h12 : headerSize = 12 := rfl
    omega
  rw [readBoundary] at hbound
  rw [segmentRead, if_neg (Nat.not_le_of_lt hcount), h.table k hk, if_neg hpos]
  simp only []
  rw [if_neg (Nat.not_le_of_lt hbound), if_pos hflags, hpayload, toSsize_of_lt hlen]

/-- A message behind the boundary is not there for the reader. -/
theorem segmentRead_uncommitted {sgm : Segment} {ps : List Buf}
    (h : Stored frame sgm.buffer sgm.index ps) {k : Nat} (hk : k < ps.length)
    (hbound : readBoundary sgm ≤ start frame ps k) :
    segmentRead sgm k = (ELNORD, ⟨none, none⟩) := by
  rw [segmentRead, h.table k hk]
  simp only []
  split
  · rfl
  · split
    · rfl
    · exact if_pos hbound

/-- A stored message below the read boundary is read back. -/
theorem reads_of_stored {sgm : Segment} {ps : List Buf} (h : Stored frame sgm.buffer sgm.index ps)
    {k : Nat} (hk : k < ps.length) (hcount : k < sgm.wOffset.index)
    (hbound : start frame ps k < readBoundary sgm) (hsmall : (image frame ps).length < 2 ^ 32) :
    Reads sgm k ps[k] :=
  ⟨_, _, segmentRead_message h hk hcount hbound hsmall, (stored_message h hk).2⟩

/-- Every message below the read boundary is read back. -/
theorem Holds.reads {sgm : Segment} {ps : List Buf} {tail : List UInt8} (h : Holds sgm ps tail)
    {k : Nat} (hk : k < ps.length) (hbound : start frame ps k < readBoundary sgm) :
    Reads sgm k ps[k] := by
  have hf := h.fits
  have hs := h.small
  exact reads_of_stored h.stored hk (by rw [h.count]; exact hk) hbound (by omega)

/-- Every message lies below the write offset. -/
theorem Holds.start_lt_written {sgm : Segment} {ps : List Buf} {tail : List UInt8}
    (h : Holds sgm ps tail) {k : Nat} (hk : k < ps.length) :
    start frame ps k < sgm.wOffset.data := by
  have hend := start_add_le_image (f := frame) hk
  have hle := h.le_written
  have h12 := headerSize_le_frame ps[k]
  have hpos : headerSize = 12 := rfl
  omega

end Mqlog
