/-
  Whole runs of `segment_write` on a new segment, and what they make of it.

  A run is remembered by the payloads it accepted and by whether some call ran `mark_eos`
  (`History`).  One call leaves the history as it is, seals the segment or accepts its payload
  (`HistoryInv.write_cases`); so after any run the segment is the accepted frames in a row, and
  behind them the end-of-segment frame if there is one (`segment_representation`).

  `ELEOS` is the answer of three kinds of segments: of a sealed one, of one that is too full, and of
  one whose last frame happens to end like an end-of-segment frame (`HistoryInv.eleos_iff`).  The
  last kind is the fault of `marked_eos`, and `eleos_iff_sealed_or_full` says which runs meet it.

  The history is not a part of the code: it is computed from the return codes (`History.write`), and
  `HistoryInv` ties it to the segment.  Its parts are

    * `Holds`, for the accepted payloads and what is behind them: nothing, or the end-of-segment
      frame when some call ran `mark_eos`;
    * the write offset at the end of all of it, since the segment was not reopened, and a synced
      position that has not moved;
    * that `mark_eos` only runs where `marked_eos` does not see an end-of-segment frame already.

  A run on a segment that counts as sealed changes nothing (`HistoryInv.run_marked`).  From this it
  can be read off the payloads what a run has led to: they are accepted one after the other while
  they fit and none of them but the last ends like an end-of-segment frame (`history_of_fits`).

  When a frame ends like that is decided by its last twelve bytes.  For a payload of twelve bytes or
  more these are its own (`endsLikeEos_iff`); for a shorter one they begin in its header, in the
  checksum or in the size, so that a message which a program does not choose for it may end like
  that as well.
-/
import Mathlib.Data.List.Induction
import Mathlib.Tactic.IntervalCases
import Mqlog.SegmentOpen

namespace Mqlog

open Lib.Mem Lib.Records

/-! ## Runs -/

/-- What a run of writes has led to. -/
structure History where
  sgm : Segment
  /-- The payloads of the calls that returned `>= 0`. -/
  accepted : List Buf
  /-- Some call ran `mark_eos`. -/
  sealed : Bool

/-- One more call. -/
def History.write (h : History) (buf : Buf) : History :=
  let (rc, sgm) := segmentWrite h.sgm buf
  { sgm := sgm
    accepted := if 0 ≤ rc then h.accepted ++ [buf] else h.accepted
    -- a call that gets past `marked_eos` returns `ELEOS` when `mark_eos` does
    sealed := h.sealed || (!markedEos h.sgm && rc = ELEOS) }

/-- A run of calls. -/
def history (sgm : Segment) (bufs : List Buf) : History := bufs.foldl History.write ⟨sgm, [], false⟩

/-- What is behind the accepted frames. -/
def History.tail (h : History) : List UInt8 := if h.sealed then eosFrame else []

theorem history_snoc (sgm : Segment) (bufs : List Buf) (buf : Buf) :
    history sgm (bufs ++ [buf]) = (history sgm bufs).write buf := List.foldl_concat ..

/-- What holds between two calls on a segment of `size` bytes. -/
structure HistoryInv (size : Nat) (h : History) : Prop where
  holds : Holds h.sgm h.accepted h.tail
  written_eq : h.sgm.wOffset.data = (image frame h.accepted).length + h.tail.length
  size_eq : h.sgm.size = size
  unsynced : h.sgm.sOffset = ⟨0, 0⟩
  /-- `mark_eos` only runs when `marked_eos` does not see an end-of-segment frame already. -/
  not_looks : h.sealed = true → looksSealed h.accepted = false

namespace HistoryInv

variable {size : Nat} {h : History}

theorem tail_of_unsealed (hsealed : h.sealed = false) : h.tail = [] := by
  rw [History.tail, hsealed]
  rfl

theorem tail_of_sealed (hsealed : h.sealed = true) : h.tail = eosFrame := by
  rw [History.tail, hsealed]
  rfl

theorem fresh (baseOffset flags : Nat) (h12 : headerSize ≤ size) (hsmall : size < 2 ^ 32) :
    HistoryInv size ⟨Segment.fresh baseOffset size flags, [], false⟩ :=
  ⟨holds_fresh baseOffset flags h12 hsmall, rfl, rfl, rfl, fun _ => rfl⟩

/-- `marked_eos` sees the end-of-segment frame, and sometimes one that is not there. -/
theorem markedEos_iff (hinv : HistoryInv size h) :
    markedEos h.sgm = true ↔ h.sealed = true ∨ looksSealed h.accepted = true := by
  have hholds := hinv.holds
  cases hsealed : h.sealed with
  | true =>
    rw [tail_of_sealed hsealed] at hholds
    have hw := hinv.written_eq
    rw [tail_of_sealed hsealed, length_eosFrame] at hw
    exact ⟨fun _ => .inl rfl, fun _ => hholds.markedEos_sealed hw⟩
  | false =>
    rw [tail_of_unsealed hsealed] at hholds
    rw [hholds.markedEos_eq]
    exact ⟨.inr, fun hor => hor.resolve_left Bool.false_ne_true⟩

/-- **What a call does to a run**: nothing, or it seals the segment, or it is accepted. -/
theorem write_cases (hinv : HistoryInv size h) (buf : Buf) :
    (markedEos h.sgm = true ∧ (segmentWrite h.sgm buf).1 = ELEOS ∧ h.write buf = h) ∨
    (markedEos h.sgm = false ∧ h.sealed = false ∧
      size < (image frame h.accepted).length + 2 * headerSize + buf.1.length ∧
      (segmentWrite h.sgm buf).1 = ELEOS ∧
      h.write buf = ⟨h.sgm.holding h.accepted eosFrame, h.accepted, true⟩) ∨
    (markedEos h.sgm = false ∧ h.sealed = false ∧
      (image frame h.accepted).length + 2 * headerSize + buf.1.length ≤ size ∧
      (segmentWrite h.sgm buf).1 = (buf.1.length : Int) ∧
      h.write buf = ⟨h.sgm.holding (h.accepted ++ [buf]) [], h.accepted ++ [buf], false⟩) := by
  have hneg : ¬ (0 : Int) ≤ ELEOS := by decide
  cases hmark : markedEos h.sgm with
  | true =>
    have heq := segmentWrite_marked hmark buf
    refine .inl ⟨rfl, by rw [heq], ?_⟩
    obtain ⟨sgm, accepted, sealed⟩ := h
    simp only [History.write, heq, if_neg hneg, hmark, Bool.not_true, Bool.false_and, Bool.or_false]
  | false =>
    have hiff := hinv.markedEos_iff
    rw [hmark] at hiff
    have hnot := fun hor => Bool.false_ne_true (hiff.mpr hor)
    have hsealed : h.sealed = false := Bool.eq_false_iff.mpr fun hs => hnot (.inl hs)
    have hlook : looksSealed h.accepted = false := Bool.eq_false_iff.mpr fun hs => hnot (.inr hs)
    have hholds := hinv.holds
    rw [tail_of_unsealed hsealed] at hholds
    rw [← hinv.size_eq]
    right
    rcases Nat.lt_or_ge h.sgm.size ((image frame h.accepted).length + 2 * headerSize + buf.1.length)
      with hfull | hfits
    · have heq := hholds.segmentWrite_full hlook buf hfull
      refine .inl ⟨rfl, hsealed, hfull, by rw [heq], ?_⟩
      rw [History.write, heq]
      simp only [if_neg hneg, hmark, hsealed, Bool.not_false, decide_true, Bool.and_self,
        Bool.or_true]
    · have heq := hholds.segmentWrite_fits hlook buf hfits
      have hne : ((buf.1.length : Nat) : Int) ≠ ELEOS := fun hlen =>
        hneg (hlen ▸ Int.natCast_nonneg _)
      refine .inr ⟨rfl, hsealed, hfits, by rw [heq], ?_⟩
      rw [History.write, heq]
      simp only [if_pos (Int.natCast_nonneg _), hsealed, hne, decide_false, Bool.and_false,
        Bool.or_false]

/-- One call preserves the invariant. -/
theorem write (hinv : HistoryInv size h) (buf : Buf) : HistoryInv size (h.write buf) := by
  have hholds := hinv.holds
  rcases hinv.write_cases buf with ⟨-, -, heq⟩ | ⟨hmark, -, -, -, heq⟩ | ⟨-, -, hfits, -, heq⟩
  · rw [heq]
    exact hinv
  · rw [heq]
    refine ⟨Holds.holding hholds.fits hholds.small (.inr rfl), rfl, hinv.size_eq, hinv.unsynced,
      fun _ => ?_⟩
    rw [← Bool.not_eq_true]
    intro hlook
    rw [hinv.markedEos_iff.mpr (.inr hlook)] at hmark
    cases hmark
  · rw [heq]
    rw [← hinv.size_eq] at hfits
    exact ⟨hholds.holding_snoc hfits, rfl, hinv.size_eq, hinv.unsynced, Bool.noConfusion⟩

/-- The frames there already stay where they are. -/
theorem write_buffer (hinv : HistoryInv size h) (buf : Buf) {p : Nat}
    (hp : p < (image frame h.accepted).length) : (h.write buf).sgm.buffer p = h.sgm.buffer p := by
  have hbuffer : h.sgm.buffer p = padded 0 (image frame h.accepted) p := by
    rw [hinv.holds.buffer, padded_append_of_lt hp]
  rcases hinv.write_cases buf with ⟨-, -, heq⟩ | ⟨-, -, -, -, heq⟩ | ⟨-, -, hfits, -, heq⟩
  · rw [heq]
  · rw [heq, hbuffer]
    exact padded_append_of_lt hp
  · rw [heq, hbuffer]
    show padded 0 (image frame (h.accepted ++ [buf]) ++ []) p = _
    rw [image_append, List.append_nil]
    exact padded_append_of_lt hp

/-- Payloads are accepted at the end. -/
theorem accepted_prefix (hinv : HistoryInv size h) (buf : Buf) :
    h.accepted <+: (h.write buf).accepted := by
  rcases hinv.write_cases buf with ⟨-, -, heq⟩ | ⟨-, -, -, -, heq⟩ | ⟨-, -, hfits, -, heq⟩
  · have haccepted := congrArg History.accepted heq
    exact haccepted ▸ List.prefix_refl _
  · have haccepted := congrArg History.accepted heq
    exact haccepted ▸ List.prefix_refl _
  · have haccepted := congrArg History.accepted heq
    exact haccepted ▸ List.prefix_append ..

/-- Any number of calls preserve the invariant, and the frames. -/
theorem run (hinv : HistoryInv size h) (bufs : List Buf) :
    HistoryInv size (bufs.foldl History.write h) ∧
      h.accepted <+: (bufs.foldl History.write h).accepted ∧
      ∀ p, p < (image frame h.accepted).length →
        (bufs.foldl History.write h).sgm.buffer p = h.sgm.buffer p := by
  induction bufs generalizing h with
  | nil => exact ⟨hinv, List.prefix_refl _, fun p _ => rfl⟩
  | cons buf bufs ih =>
    obtain ⟨hinv', hsub, hbuffer⟩ := ih (hinv.write buf)
    have hone := hinv.accepted_prefix buf
    refine ⟨hinv', hone.trans hsub, fun p hp => ?_⟩
    have hle : (image frame h.accepted).length ≤ (image frame (h.write buf).accepted).length := by
      obtain ⟨r, hr⟩ := hone
      rw [← hr, image_append, List.length_append]
      exact Nat.le_add_right ..
    exact (hbuffer p (Nat.lt_of_lt_of_le hp hle)).trans (hinv.write_buffer buf hp)

end HistoryInv

/-- Every sequence of writes on a fresh segment keeps the invariant. -/
theorem historyInv_fresh {b size f : Nat} (h12 : headerSize ≤ size)
    (hsmall : size < 2 ^ 32) (bufs : List Buf) :
    HistoryInv size (history (Segment.fresh b size f) bufs) :=
  ((HistoryInv.fresh b f h12 hsmall).run bufs).1

/-! ## The representation -/

/-- The size of the frames of the messages, together. -/
def framesSize (ps : List Buf) : Nat := (ps.map fun buf => headerSize + buf.1.length).sum

theorem framesSize_eq (ps : List Buf) : framesSize ps = (image frame ps).length :=
  (length_image ps).symm

/-- **Segment representation invariant.**  After any run of writes to a new segment: the write
    offset counts the accepted payloads; entry `i` of the index is the size of the frames before the
    `i`-th, and there is the frame of the `i`-th; the write offset is behind the last frame, with
    room for an end-of-segment frame, or behind that frame when the segment is sealed; and from one
    moment of the run to another no byte of an earlier frame changes. -/
theorem segment_representation {page : PageSize} {baseOffset size flags : Nat}
    (hsmall : size < 2 ^ 32) {sgm : Segment} {files : SegmentFiles}
    (hopen : segmentOpen page .ok ⟨none, none⟩ baseOffset size flags = (0, some sgm, files))
    (bufs : List Buf) {h : History} (hrun : history sgm bufs = h) :
    h.sgm.wOffset.index = h.accepted.length ∧
    (∀ i (hi : i < h.accepted.length),
      h.sgm.index i = framesSize (h.accepted.take i) ∧
      HeaderAt h.sgm.buffer (h.sgm.index i) headerFlagsReady
        (headerSize + h.accepted[i].1.length) (crc32 0 h.accepted[i].1).toNat ∧
      load h.sgm.buffer (h.sgm.index i + headerSize) h.accepted[i].1.length = h.accepted[i].1) ∧
    ((h.sealed = false ∧ h.sgm.wOffset.data = framesSize h.accepted ∧
        framesSize h.accepted + headerSize ≤ size) ∨
      (h.sealed = true ∧
        HeaderAt h.sgm.buffer (framesSize h.accepted) headerFlagsEos headerSize 0 ∧
        h.sgm.wOffset.data = framesSize h.accepted + headerSize ∧
        framesSize h.accepted + headerSize ≤ size)) ∧
    ∀ pre post, bufs = pre ++ post → ∀ p, p < framesSize (history sgm pre).accepted →
      h.sgm.buffer p = (history sgm pre).sgm.buffer p := by
  obtain ⟨h0, hmod, rfl, -⟩ := segmentOpen_new_size hopen
  have h12 : headerSize ≤ size := Nat.le_trans (by decide) (page.le_of_mod h0 hmod)
  have hinv : HistoryInv size h := hrun ▸ historyInv_fresh h12 hsmall bufs
  have hholds := hinv.holds
  have hfits := hholds.fits
  rw [hinv.size_eq] at hfits
  simp only [framesSize_eq]
  refine ⟨hholds.count, fun i hi => ?_, ?_, fun pre post hsplit p hp => ?_⟩
  · have hentry : h.sgm.index i = start frame h.accepted i := hholds.stored.table i hi
    have hmessage := stored_message hholds.stored hi
    rw [hentry]
    exact ⟨rfl, hmessage⟩
  · have hw := hinv.written_eq
    cases hsealed : h.sealed with
    | false =>
      rw [HistoryInv.tail_of_unsealed hsealed, List.length_nil, Nat.add_zero] at hw
      exact .inl ⟨rfl, hw, hfits⟩
    | true =>
      rw [HistoryInv.tail_of_sealed hsealed] at hw hholds
      exact .inr ⟨rfl, hholds.headerAt_eos, hw, hfits⟩
  · have hpre := historyInv_fresh (b := baseOffset) (f := flags) h12 hsmall pre
    have heq : h =
        post.foldl History.write (history (Segment.fresh baseOffset size flags) pre) := by
      rw [← hrun, hsplit, history, List.foldl_append, history]
    rw [heq]
    exact (hpre.run post).2.2 p hp

/-- Two messages are accepted, and a third one seals the segment: the frames have 13 and 14 bytes,
    and the end-of-segment frame is behind them. -/
theorem segment_representation_of_three :
    let bufs := [⟨[0x61], by decide⟩, ⟨[0x62, 0x63], by decide⟩, bytes 4096 0x64 (by decide)]
    let h := history (Segment.fresh 0 4096 0) bufs
    h.accepted.map (·.1) = [[0x61], [0x62, 0x63]] ∧ h.sealed = true ∧
      h.sgm.wOffset.index = h.accepted.length ∧
      (∀ i (hi : i < h.accepted.length),
        h.sgm.index i = framesSize (h.accepted.take i) ∧
        HeaderAt h.sgm.buffer (h.sgm.index i) headerFlagsReady
          (headerSize + h.accepted[i].1.length) (crc32 0 h.accepted[i].1).toNat ∧
        load h.sgm.buffer (h.sgm.index i + headerSize) h.accepted[i].1.length = h.accepted[i].1) ∧
      HeaderAt h.sgm.buffer 27 headerFlagsEos headerSize 0 ∧ h.sgm.wOffset.data = 39 ∧
      ∀ pre post, bufs = pre ++ post →
        ∀ p, p < framesSize (history (Segment.fresh 0 4096 0) pre).accepted →
          h.sgm.buffer p = (history (Segment.fresh 0 4096 0) pre).sgm.buffer p := by
  intro bufs h
  have hopen := segmentOpen_new 0 0 (by decide) (show 4096 % page4096.bytes = 0 by decide)
  obtain ⟨hcount, hframes, hend, hkept⟩ :=
    segment_representation (by decide) hopen bufs (rfl : _ = h)
  have haccepted : h.accepted.map (·.1) = [[0x61], [0x62, 0x63]] := by decide +kernel
  have hsealed : h.sealed = true := by decide +kernel
  have hsize : framesSize h.accepted = 27 := by decide +kernel
  rw [hsealed, hsize] at hend
  obtain ⟨h0, -⟩ | ⟨-, heos, hw, -⟩ := hend
  · exact absurd h0 Bool.noConfusion
  · exact ⟨haccepted, hsealed, hcount, hframes, heos, hw, hkept⟩

/-! ## The end of the segment -/

/-- The flags of an end-of-segment header are twice the same byte. -/
theorem get16_eq_eos_iff {m : Nat → UInt8} {p : Nat} :
    get16 m p = headerFlagsEos ↔ m p = 0xaa ∧ m (p + 1) = 0xaa := by
  have h0 := (m p).toNat_lt
  have h1 := (m (p + 1)).toNat_lt
  rw [← UInt8.toNat_inj, ← UInt8.toNat_inj, get16, headerFlagsEos,
    show (0xaa : UInt8).toNat = 170 from rfl]
  omega

/-- A long message ends like an end-of-segment frame when it says so itself. -/
theorem endsLikeEos_iff {buf : Buf} (h : headerSize ≤ buf.1.length) :
    endsLikeEos buf = true ↔
      buf.1[buf.1.length - headerSize]? = some 0xaa ∧
      buf.1[buf.1.length - headerSize + 1]? = some 0xaa := by
  have h12 : headerSize = 12 := rfl
  have hbyte : ∀ i, i < 2 → padded 0 (frame buf) (buf.1.length + i) =
      padded 0 buf.1 (buf.1.length - headerSize + i) := by
    intro i hi
    have hsum : buf.1.length + i = (headerBytes headerFlagsReady (headerSize + buf.1.length)
        (crc32 0 buf.1).toNat).length + (buf.1.length - headerSize + i) := by
      rw [length_headerBytes]
      omega
    rw [hsum, frame, padded_append_add]
  have hsome : ∀ i, i < buf.1.length → ∀ c, padded 0 buf.1 i = c ↔ buf.1[i]? = some c := by
    intro i hi c
    rw [padded_of_lt hi, List.getElem?_eq_getElem hi, Option.some_inj]
  have hb0 := hbyte 0 (by omega)
  have hb1 := hbyte 1 (by omega)
  rw [Nat.add_zero, Nat.add_zero] at hb0
  rw [endsLikeEos, decide_eq_true_eq, hdrFlags, get16_eq_eos_iff, hb0, hb1, hsome _ (by omega),
    hsome _ (by omega)]

/-- A short message ends in a header: its last twelve bytes start inside its own header. -/
theorem endsLikeEos_short {buf : Buf} (h : buf.1.length < 8) : endsLikeEos buf = false := by
  have hbyte : ∀ (n crc : Nat) (l : List UInt8) (hn : n < 8),
      padded 0 (headerBytes headerFlagsReady (headerSize + n) crc ++ l) n =
        ([0xef, 0xbe, 0, 0, 16, 0, 0, 0] : List UInt8)[n] := by
    intro n crc l hn
    interval_cases n <;> rfl
  have hne : ∀ n (hn : n < 8), ([0xef, 0xbe, 0, 0, 16, 0, 0, 0] : List UInt8)[n] ≠ 0xaa := by
    decide
  rw [endsLikeEos, decide_eq_false_iff_not, hdrFlags, get16_eq_eos_iff]
  rintro ⟨hlow, -⟩
  rw [frame, hbyte _ _ _ h] at hlow
  exact hne _ h hlow

/-- A message that ends like an end-of-segment frame is accepted, and a later one would still fit
    behind it. -/
def FalseEos (size : Nat) (bufs : List Buf) : Prop :=
  ∃ pre p mid buf post, bufs = pre ++ p :: mid ++ buf :: post ∧
    (∀ q ∈ pre, endsLikeEos q = false) ∧ endsLikeEos p = true ∧
    framesSize (pre ++ [p]) + 2 * headerSize + buf.1.length ≤ size

/-- `segment_write` answers `ELEOS` when `marked_eos` says so, or when there is no room. -/
theorem HistoryInv.eleos_iff {size : Nat} {h : History} (hinv : HistoryInv size h) (buf : Buf) :
    (segmentWrite h.sgm buf).1 = ELEOS ↔
      markedEos h.sgm = true ∨
        size < (image frame h.accepted).length + 2 * headerSize + buf.1.length := by
  rcases hinv.write_cases buf with ⟨hmark, hrc, -⟩ | ⟨-, -, hfull, hrc, -⟩ |
    ⟨hmark, -, hfits, hrc, -⟩
  · exact ⟨fun _ => .inl hmark, fun _ => hrc⟩
  · exact ⟨fun _ => .inr hfull, fun _ => hrc⟩
  · rw [hrc, hmark]
    constructor
    · intro hlen
      have hpos : (0 : Int) ≤ ELEOS := hlen ▸ Int.natCast_nonneg _
      exact absurd hpos (by decide)
    · rintro (hm | hfull)
      · exact absurd hm Bool.false_ne_true
      · omega

/-- The answer is true but for one kind of segment. -/
theorem HistoryInv.eleos_true_iff {size : Nat} {h : History} (hinv : HistoryInv size h)
    (buf : Buf) :
    ((segmentWrite h.sgm buf).1 = ELEOS ↔
      h.sealed = true ∨ size - h.sgm.wOffset.data < buf.1.length + 2 * headerSize) ↔
    ¬ (h.sealed = false ∧ looksSealed h.accepted = true ∧
      (image frame h.accepted).length + 2 * headerSize + buf.1.length ≤ size) := by
  rw [hinv.eleos_iff, hinv.markedEos_iff]
  cases hsealed : h.sealed with
  | true => simp
  | false =>
    have hw := hinv.written_eq
    have hfits := hinv.holds.fits
    rw [tail_of_unsealed hsealed, List.length_nil, Nat.add_zero] at hw
    rw [hinv.size_eq] at hfits
    have hroom : size - h.sgm.wOffset.data < buf.1.length + 2 * headerSize ↔
        size < (image frame h.accepted).length + 2 * headerSize + buf.1.length := by omega
    rw [hroom, ← Nat.not_le]
    cases looksSealed h.accepted <;> simp

section Runs

variable {b size f : Nat}

/-- Nothing happens to a segment that counts as sealed. -/
theorem HistoryInv.run_marked {h : History} (hinv : HistoryInv size h)
    (hmark : markedEos h.sgm = true) (bufs : List Buf) : bufs.foldl History.write h = h := by
  induction bufs with
  | nil => rfl
  | cons buf bufs ih =>
    rw [List.foldl_cons]
    rcases hinv.write_cases buf with ⟨-, -, heq⟩ | ⟨hnot, -⟩ | ⟨hnot, -⟩
    · rw [heq, ih]
    · rw [hmark] at hnot
      cases hnot
    · rw [hmark] at hnot
      cases hnot

theorem looksSealed_of_forall {ps : List Buf} (h : ∀ q ∈ ps, endsLikeEos q = false) :
    looksSealed ps = false := by
  rcases List.eq_nil_or_concat ps with rfl | ⟨qs, p, rfl⟩
  · rfl
  · rw [List.concat_eq_append, looksSealed_snoc]
    exact h p
      (by rw [List.concat_eq_append]; exact List.mem_append_right _ (List.mem_singleton_self _))

theorem framesSize_snoc (ps : List Buf) (p : Buf) :
    framesSize (ps ++ [p]) = framesSize ps + headerSize + p.1.length := by
  rw [framesSize_eq, framesSize_eq, length_image_snoc]

/-- Messages that fit are all accepted, as long as none but the last ends like an end-of-segment
    frame. -/
theorem history_of_fits (h12 : headerSize ≤ size) (hsmall : size < 2 ^ 32) (bufs : List Buf)
    (hends : ∀ q ∈ bufs.dropLast, endsLikeEos q = false)
    (hfits : framesSize bufs + headerSize ≤ size) :
    (history (Segment.fresh b size f) bufs).accepted = bufs ∧
      (history (Segment.fresh b size f) bufs).sealed = false := by
  induction bufs using List.reverseRecOn with
  | nil => exact ⟨rfl, rfl⟩
  | append_singleton bufs buf ih =>
    rw [List.dropLast_concat] at hends
    rw [framesSize_snoc] at hfits
    obtain ⟨haccepted, hsealed⟩ := ih (fun q hq => hends q (List.dropLast_subset _ hq)) (by omega)
    have hinv := historyInv_fresh (b := b) (f := f) h12 hsmall bufs
    have hlook := looksSealed_of_forall hends
    rw [history_snoc]
    rcases hinv.write_cases buf with ⟨hmark, -, -⟩ | ⟨-, -, hfull, -, -⟩ | ⟨-, -, -, -, heq⟩
    · have hor := hinv.markedEos_iff.mp hmark
      rw [haccepted, hsealed, hlook] at hor
      simp at hor
    · rw [haccepted, ← framesSize_eq] at hfull
      omega
    · rw [heq, haccepted]
      exact ⟨rfl, rfl⟩

/-- A message that does not fit behind them seals the segment. -/
theorem history_of_full (h12 : headerSize ≤ size) (hsmall : size < 2 ^ 32) (bufs : List Buf)
    (buf : Buf) (hends : ∀ q ∈ bufs, endsLikeEos q = false)
    (hfits : framesSize bufs + headerSize ≤ size)
    (hfull : size < framesSize bufs + 2 * headerSize + buf.1.length) :
    (history (Segment.fresh b size f) (bufs ++ [buf])).accepted = bufs ∧
      (history (Segment.fresh b size f) (bufs ++ [buf])).sealed = true := by
  obtain ⟨haccepted, hsealed⟩ := history_of_fits (b := b) (f := f) h12 hsmall bufs
    (fun q hq => hends q (List.dropLast_subset _ hq)) hfits
  have hinv := historyInv_fresh (b := b) (f := f) h12 hsmall bufs
  rw [history_snoc]
  rcases hinv.write_cases buf with ⟨hmark, -, -⟩ | ⟨-, -, -, -, heq⟩ | ⟨-, -, hroom, -, -⟩
  · have hor := hinv.markedEos_iff.mp hmark
    rw [haccepted, hsealed, looksSealed_of_forall hends] at hor
    simp at hor
  · rw [heq]
    exact ⟨haccepted, rfl⟩
  · rw [haccepted, ← framesSize_eq] at hroom
    omega

/-- What a run has led to when nothing sealed the segment: every message was accepted, or the last
    accepted one made the segment look sealed. -/
theorem history_unsealed (h12 : headerSize ≤ size) (hsmall : size < 2 ^ 32) (bufs : List Buf)
    (hsealed : (history (Segment.fresh b size f) bufs).sealed = false) :
    ((history (Segment.fresh b size f) bufs).accepted = bufs ∧
      ∀ q ∈ bufs, endsLikeEos q = false) ∨
    ∃ pre p mid, bufs = pre ++ p :: mid ∧
      (history (Segment.fresh b size f) bufs).accepted = pre ++ [p] ∧
      (∀ q ∈ pre, endsLikeEos q = false) ∧ endsLikeEos p = true := by
  induction bufs using List.reverseRecOn with
  | nil => exact .inl ⟨rfl, fun q hq => absurd hq List.not_mem_nil⟩
  | append_singleton bufs buf ih =>
    have hinv := historyInv_fresh (b := b) (f := f) h12 hsmall bufs
    rw [history_snoc] at hsealed ⊢
    rcases hinv.write_cases buf with ⟨hmark, -, heq⟩ | ⟨-, -, -, -, heq⟩ | ⟨hmark, hs, -, -, heq⟩
    · -- refused by a segment that only looks sealed
      rw [heq] at hsealed ⊢
      have hlook := (hinv.markedEos_iff.mp hmark).resolve_left (by rw [hsealed]; decide)
      rcases ih hsealed with ⟨haccepted, hends⟩ | ⟨pre, p, mid, hsplit, haccepted, hends, hp⟩
      · rw [haccepted, looksSealed_of_forall hends] at hlook
        cases hlook
      · exact .inr ⟨pre, p, mid ++ [buf], by rw [hsplit]; simp, haccepted, hends, hp⟩
    · rw [heq] at hsealed
      cases hsealed
    · rw [heq]
      have hlook : looksSealed (history (Segment.fresh b size f) bufs).accepted = false := by
        rw [← Bool.not_eq_true]
        intro hl
        rw [hinv.markedEos_iff.mpr (.inr hl)] at hmark
        cases hmark
      rcases ih hs with ⟨haccepted, hends⟩ | ⟨pre, p, mid, -, haccepted, -, hp⟩
      · rw [haccepted]
        cases hbuf : endsLikeEos buf with
        | false =>
          refine .inl ⟨rfl, fun q hq => ?_⟩
          rcases List.mem_append.mp hq with hq | hq
          · exact hends q hq
          · rw [List.mem_singleton.mp hq]
            exact hbuf
        | true => exact .inr ⟨bufs, buf, [], rfl, rfl, hends, hbuf⟩
      · rw [haccepted, looksSealed_snoc, hp] at hlook
        cases hlook

end Runs

/-- **When end of segment is reported only if it is true**: in the runs in which no accepted message
    ends like an end-of-segment frame in front of one that would still fit. -/
theorem eleos_iff_sealed_or_full {page : PageSize} {baseOffset size flags : Nat}
    (hsmall : size < 2 ^ 32) {sgm : Segment} {files : SegmentFiles}
    (hopen : segmentOpen page .ok ⟨none, none⟩ baseOffset size flags = (0, some sgm, files))
    (bufs : List Buf) :
    (∀ pre buf post, bufs = pre ++ buf :: post →
      ((segmentWrite (history sgm pre).sgm buf).1 = ELEOS ↔
        (history sgm pre).sealed = true ∨
          size - (history sgm pre).sgm.wOffset.data < buf.1.length + 2 * headerSize)) ↔
      ¬ FalseEos size bufs := by
  obtain ⟨h0, hmod, rfl, -⟩ := segmentOpen_new_size hopen
  have h12 : headerSize ≤ size := Nat.le_trans (by decide) (page.le_of_mod h0 hmod)
  have hinv := fun pre => historyInv_fresh (b := baseOffset) (f := flags) h12 hsmall pre
  constructor
  · rintro hall ⟨pre, p, mid, buf, post, hsplit, hends, hp, hfits⟩
    have hsize := framesSize_snoc pre p
    obtain ⟨haccepted, hsealed⟩ := history_of_fits (b := baseOffset) (f := flags) h12 hsmall
      (pre ++ [p]) (by rwa [List.dropLast_concat]) (by omega)
    -- the calls between the two messages change nothing
    have hmark := (hinv (pre ++ [p])).markedEos_iff.mpr
      (.inr (by rw [haccepted, looksSealed_snoc]; exact hp))
    have hsame : history (Segment.fresh baseOffset size flags) (pre ++ p :: mid) =
        history (Segment.fresh baseOffset size flags) (pre ++ [p]) := by
      rw [List.append_cons, history, List.foldl_append]
      exact (hinv (pre ++ [p])).run_marked hmark mid
    have htrue := ((hinv (pre ++ p :: mid)).eleos_true_iff buf).mp (hall _ buf post hsplit)
    rw [hsame] at htrue
    refine htrue ⟨hsealed, by rw [haccepted, looksSealed_snoc]; exact hp, ?_⟩
    rwa [haccepted, ← framesSize_eq]
  · intro hnot pre buf post hsplit
    refine ((hinv pre).eleos_true_iff buf).mpr ?_
    rintro ⟨hsealed, hlook, hfits⟩
    rcases history_unsealed h12 hsmall pre hsealed with
      ⟨haccepted, hends⟩ | ⟨qs, p, mid, hpre, haccepted, hends, hp⟩
    · rw [haccepted, looksSealed_of_forall hends] at hlook
      cases hlook
    · rw [haccepted, ← framesSize_eq] at hfits
      exact hnot ⟨qs, p, mid, buf, post, by rw [hsplit, hpre], hends, hp, hfits⟩

/-- Two short messages: the answers are true. -/
theorem eleos_iff_sealed_or_full_of_two :
    let bufs := [⟨[0x61], by decide⟩, ⟨[0x62, 0x63], by decide⟩]
    let sgm := Segment.fresh 0 4096 0
    ¬ FalseEos 4096 bufs ∧ ∀ pre buf post, bufs = pre ++ buf :: post →
      ((segmentWrite (history sgm pre).sgm buf).1 = ELEOS ↔
        (history sgm pre).sealed = true ∨
          4096 - (history sgm pre).sgm.wOffset.data < buf.1.length + 2 * headerSize) := by
  have hopen := segmentOpen_new 0 0 (by decide) (show 4096 % page4096.bytes = 0 by decide)
  have hshort : ¬ FalseEos 4096 [⟨[0x61], by decide⟩, ⟨[0x62, 0x63], by decide⟩] := by
    rintro ⟨pre, p, mid, buf, post, hsplit, -, hp, -⟩
    have hmem : p ∈ [⟨[0x61], by decide⟩, ⟨[0x62, 0x63], by decide⟩] := by
      rw [hsplit]
      simp
    have hlen : p.1.length < 8 := by
      simp only [List.mem_cons, List.not_mem_nil, or_false] at hmem
      rcases hmem with rfl | rfl <;> decide
    rw [endsLikeEos_short hlen] at hp
    cases hp
  exact ⟨hshort, (eleos_iff_sealed_or_full (by decide) hopen _).mpr hshort⟩

/-- A message of twelve bytes `0xaa` is taken for an end-of-segment frame: the next call returns
    `ELEOS`, though nothing sealed the segment and 4072 bytes are free. -/
theorem eleos_of_twelve_bytes :
    ∃ sgm files, segmentOpen page4096 .ok ⟨none, none⟩ 0 4096 0 = (0, some sgm, files) ∧
      let h := history sgm [bytes 12 0xaa (by decide)]
      (segmentWrite h.sgm ⟨[0x61], by decide⟩).1 = ELEOS ∧
      ¬ (h.sealed = true ∨ 4096 - h.sgm.wOffset.data < 1 + 2 * headerSize) := by
  refine ⟨_, _, segmentOpen_new _ _ (by decide) (by decide), ?_⟩
  decide

end Mqlog
