/-
  What a committed reader sees.

  `segment_read` of a segment opened with `SGM_RDCMT` compares the position of a message with the
  synced position, a byte count.  It is not a count of messages, so the point is that it never lies
  inside a frame that was accepted after the last sync: a sync moves it to the write offset, which
  is behind the last frame, and the next frame starts there (`CommittedInv.boundary`).  Then what
  can be read is what was accepted before the last sync (`committed_reads_exact`).

  A session is any list of writes, reads and syncs whose `msync`s succeed.  It is followed with two
  lists of payloads, those accepted so far and those accepted before the latest sync (`Session`),
  and the invariant has for the segment

    * that it holds the first list, and is in step with its files;
    * that the synced position is behind the frames of the second list, or behind the end-of-segment
      frame as well, when that was there at the sync.

  A message of the second list lies below the synced position, so it is read (`CommittedInv.reads`);
  a later one starts at the synced position or behind it, so it is not there
  (`CommittedInv.not_read`).
-/
import Mqlog.SegmentCrash
import Mqlog.SegmentSyncFails

namespace Mqlog

open Lib.Mem Lib.Records

/-- One call of a session, among them reads and the outcomes of `msync`. -/
def Session.op (page : PageSize) (s : Session) (op : SegmentOp) : Session :=
  let (rc, sgm) := segmentOp page s.sgm op
  match op with
  | .write buf => { s with sgm := sgm, written := if 0 ≤ rc then s.written ++ [buf] else s.written }
  | .read _ => { s with sgm := sgm }
  | .sync _ => { s with sgm := sgm, synced := s.written }

/-- A session on a segment without messages: the payloads accepted so far, and those accepted before
    the latest sync. -/
def sessionOps (page : PageSize) (sgm : Segment) (ops : List SegmentOp) : Session :=
  ops.foldl (Session.op page) ⟨sgm, [], []⟩

theorem foldl_op_sgm (page : PageSize) : ∀ (ops : List SegmentOp) (s : Session),
    (ops.foldl (Session.op page) s).sgm = segmentOps page s.sgm ops
  | [], _ => rfl
  | op :: ops, s => by
    have hop : (s.op page op).sgm = (segmentOp page s.sgm op).2 := by cases op <;> rfl
    rw [List.foldl_cons, foldl_op_sgm page ops, hop]
    rfl

/-- All `msync`s of the call succeed. -/
def SegmentOp.Succeeds : SegmentOp → Prop
  | .sync msyncs => msyncs = (true, true)
  | _ => True

/-- What holds between two calls. -/
structure CommittedInv (s : Session) (tail : List UInt8) : Prop where
  holds : Holds s.sgm s.written tail
  written_eq : s.sgm.wOffset.data = (image frame s.written).length + tail.length
  data_le : s.sgm.sOffset.data ≤ s.sgm.wOffset.data
  synced_prefix : s.synced <+: s.written
  /-- The synced position is behind the synced messages. -/
  synced_le : (image frame s.synced).length ≤ s.sgm.sOffset.data
  /-- And it is not behind the start of any later one. -/
  boundary : ∀ k, s.synced.length ≤ k → k < s.written.length →
    s.sgm.sOffset.data ≤ start frame s.written k

namespace CommittedInv

variable {page : PageSize} {s : Session} {tail : List UInt8}

theorem write (h : CommittedInv s tail) (buf : Buf) :
    ∃ tail', CommittedInv (s.op page (.write buf)) tail' := by
  have hholds := h.holds
  rw [Session.op, segmentOp]
  rcases hholds.segmentWrite_outcome h.written_eq buf with heq | ⟨rfl, heq⟩ | ⟨rfl, hfits, heq⟩
  · rw [heq]
    exact ⟨tail, h⟩
  · -- sealed: the messages stay
    rw [heq]
    refine ⟨eosFrame, Holds.holding hholds.fits hholds.small (.inr rfl), rfl, ?_, h.synced_prefix,
      h.synced_le, h.boundary⟩
    have hle := h.data_le
    rw [hholds.written_eq] at hle
    exact Nat.le_trans hle (Nat.le_add_right ..)
  · -- the new message starts at the write offset
    rw [heq]
    simp only [if_pos (Int.natCast_nonneg _)]
    have hle := h.data_le
    rw [hholds.written_eq] at hle
    refine ⟨[], hholds.holding_snoc hfits, rfl, ?_, h.synced_prefix.trans (List.prefix_append ..),
      h.synced_le, fun k hk hlt => ?_⟩
    · show s.sgm.sOffset.data ≤ (image frame (s.written ++ [buf])).length + 0
      rw [length_image_snoc]
      omega
    · show s.sgm.sOffset.data ≤ start frame (s.written ++ [buf]) k
      rw [List.length_append, List.length_singleton] at hlt
      rw [start_append (Nat.le_of_lt_succ hlt)]
      rcases Nat.eq_or_lt_of_le (Nat.le_of_lt_succ hlt) with rfl | hlt'
      · rw [start_length]
        exact hle
      · exact h.boundary k hk hlt'

theorem sync (h : CommittedInv s tail) : CommittedInv (s.op page (.sync (true, true))) tail := by
  have hw := h.holds.written_le_size
  have hsmall := h.holds.small
  have hsynced := segmentSync_sOffset page h.data_le (by omega)
  obtain ⟨-, -, -, -, -, hw'⟩ := segmentSync_frame page s.sgm (true, true)
  rw [Session.op, segmentOp]
  refine ⟨h.holds.segmentSync page _, ?_, ?_, List.prefix_refl _, ?_, ?_⟩
  · rw [hw']
    exact h.written_eq
  · rw [hsynced, hw']
  · rw [hsynced]
    exact h.holds.le_written
  · -- there is no later message
    intro k hk hlt
    exact absurd hlt (Nat.not_lt_of_le hk)

/-- **The step lemma.** -/
theorem op (h : CommittedInv s tail) :
    ∀ op : SegmentOp, op.Succeeds → ∃ tail', CommittedInv (s.op page op) tail'
  | .write buf, _ => h.write buf
  | .read _, _ => ⟨tail, h⟩
  | .sync msyncs, hsucceeds => by
    obtain rfl : msyncs = (true, true) := hsucceeds
    exact ⟨tail, h.sync⟩

/-- Any number of calls keep the invariant. -/
theorem run (page : PageSize) : ∀ (ops : List SegmentOp) {s : Session} {tail : List UInt8},
    CommittedInv s tail → (∀ op ∈ ops, op.Succeeds) →
    ∃ tail', CommittedInv (ops.foldl (Session.op page) s) tail'
  | [], _, tail, h, _ => ⟨tail, h⟩
  | op :: ops, _, _, h, hsucceed => by
    obtain ⟨tail', h'⟩ := h.op op (hsucceed op List.mem_cons_self)
    exact run page ops h' fun op' hop' => hsucceed op' (List.mem_cons_of_mem _ hop')

/-- A message is read when it was synced. -/
theorem reads (h : CommittedInv s tail) (hflags : s.sgm.flags &&& sgmRdcmt = sgmRdcmt) {i : Nat}
    (hi : i < s.synced.length) : Reads s.sgm i s.synced[i] := by
  obtain ⟨rest, hrest⟩ := h.synced_prefix
  have hlen := h.synced_prefix.length_le
  have hend := start_add_le_image (f := frame) hi
  have h12 := headerSize_le_frame s.synced[i]
  have hpos : headerSize = 12 := rfl
  have hle := h.synced_le
  have hboundary : readBoundary s.sgm = s.sgm.sOffset.data := if_pos hflags
  have hread := h.holds.reads (show i < s.written.length by omega) (by
    rw [hboundary, ← hrest, start_append (Nat.le_of_lt hi)]
    omega)
  simp only [← hrest, List.getElem_append_left hi] at hread
  exact hread

/-- Any other message is not. -/
theorem not_read (h : CommittedInv s tail) (hflags : s.sgm.flags &&& sgmRdcmt = sgmRdcmt) {i : Nat}
    (hi : s.synced.length ≤ i) : (segmentRead s.sgm i).1 = ELNORD := by
  have hboundary : readBoundary s.sgm = s.sgm.sOffset.data := if_pos hflags
  rcases Nat.lt_or_ge i s.written.length with hlt | hge
  · rw [segmentRead_uncommitted h.holds.stored hlt (hboundary ▸ h.boundary i hi hlt)]
  · rw [segmentRead_unwritten (by rw [h.holds.count]; exact hge)]

end CommittedInv

/-- No call changes the flags. -/
theorem segmentOps_flags (page : PageSize) : ∀ (ops : List SegmentOp) (sgm : Segment),
    (segmentOps page sgm ops).flags = sgm.flags
  | [], _ => rfl
  | op :: ops, sgm => by
    have hop : (segmentOp page sgm op).2.flags = sgm.flags := by
      cases op with
      | write buf =>
        rw [segmentOp, segmentWrite]
        split
        · rfl
        dsimp only
        split
        · rw [markEos, claim_self]
          rfl
        · rw [claim_self]
          rfl
      | read relativeOffset => rfl
      | sync msyncs => exact (segmentSync_frame page sgm msyncs).1
    exact (segmentOps_flags page ops _).trans hop

/-- **A committed reader sees exactly the synced messages**: after any calls on a new segment, a
    read of message `i` gives its payload when the message was accepted before the latest sync, and
    `ELNORD` for every other `i`. -/
theorem committed_reads_exact {page : PageSize} {baseOffset size flags : Nat}
    (hsmall : size < 2 ^ 32) (hflags : flags &&& sgmRdcmt = sgmRdcmt) {sgm : Segment}
    {files : SegmentFiles} (hopen : segmentOpen page .ok ⟨none, none⟩ baseOffset size flags =
      (0, some sgm, files))
    (ops : List SegmentOp) (hsucceed : ∀ op ∈ ops, op.Succeeds) :
    let s := sessionOps page sgm ops
    s.sgm = segmentOps page sgm ops ∧ s.synced <+: s.written ∧
      ∀ i, (∀ hi : i < s.synced.length, Reads s.sgm i s.synced[i]) ∧
        (s.synced.length ≤ i → (segmentRead s.sgm i).1 = ELNORD) := by
  obtain ⟨h0, hmod, rfl, -⟩ := segmentOpen_new_size hopen
  have h12 : headerSize ≤ size := Nat.le_trans (by decide) (page.le_of_mod h0 hmod)
  have hinit : CommittedInv ⟨Segment.fresh baseOffset size flags, [], []⟩ [] :=
    ⟨holds_fresh baseOffset flags h12 hsmall, rfl, Nat.le_refl _, List.prefix_refl _, Nat.zero_le _,
      fun k _ hk => absurd hk (Nat.not_lt_zero k)⟩
  obtain ⟨tail, h⟩ := CommittedInv.run page ops hinit hsucceed
  have hsgm := foldl_op_sgm page ops ⟨Segment.fresh baseOffset size flags, [], []⟩
  have hflags' : (sessionOps page (Segment.fresh baseOffset size flags) ops).sgm.flags &&&
      sgmRdcmt = sgmRdcmt := by
    rw [sessionOps, hsgm, segmentOps_flags]
    exact hflags
  exact ⟨hsgm, h.synced_prefix, fun i => ⟨fun hi => h.reads hflags' hi, h.not_read hflags'⟩⟩

/-- Two messages, of which one is synced. -/
theorem committed_reads_exact_of_two :
    ∃ sgm files, segmentOpen page4096 .ok ⟨none, none⟩ 0 4096 sgmRdcmt = (0, some sgm, files) ∧
      let s := sessionOps page4096 sgm
        [.write ⟨[0x61], by decide⟩, .sync (true, true), .write ⟨[0x62], by decide⟩, .read 0]
      s.sgm = segmentOps page4096 sgm
        [.write ⟨[0x61], by decide⟩, .sync (true, true), .write ⟨[0x62], by decide⟩, .read 0] ∧
      s.synced <+: s.written ∧
      ∀ i, (∀ hi : i < s.synced.length, Reads s.sgm i s.synced[i]) ∧
        (s.synced.length ≤ i → (segmentRead s.sgm i).1 = ELNORD) := by
  have hopen := segmentOpen_new 0 sgmRdcmt (by decide) (show 4096 % page4096.bytes = 0 by decide)
  refine ⟨_, _, hopen, committed_reads_exact (by decide) (by decide) hopen _ ?_⟩
  intro op hop
  simp only [List.mem_cons, List.not_mem_nil, or_false] at hop
  rcases hop with rfl | rfl | rfl | rfl
  · exact trivial
  · exact rfl
  · exact trivial
  · exact trivial

end Mqlog
