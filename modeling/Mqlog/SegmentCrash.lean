/-
  A crash of a segment, and what is left of it.

  One thread writes to a new segment and syncs it, in any order (`session`).  At the crash each byte
  of the data and each entry of the index is found in the files either as it was in memory or as it
  was put there by the last sync (`CrashImage`).  `segment_open` then recovers a write offset that
  may lie anywhere behind the synced messages: at the end of a later message whose index entry
  survived, or inside one whose header is torn.  It never lies inside a synced message
  (`recovered_behind`), and later writes store behind it (`Behind.segmentWrite`).

  The argument has four steps.

    1. What is synced is on disk (`SessionInv`), so it is in every crash image
       (`CrashImage.stored`).  What is not synced is in the image or is zero there
       (`CrashImage.data_torn`, `CrashImage.index_torn`), because the files were zero before.
    2. The entries of the synced messages are used, so the scan of `find_w_offset_pair` does not
       stop among them; it stops somewhere, as no entry behind the last message is set
       (`CrashImage.exists_free`).
    3. The entry in front of the stop is zero or the position of a message that was written
       (`CrashImage.entry`), and the size in its header may be torn byte by byte, but never to a
       greater number (`CrashImage.size_le`).  So the recovered write offset lies between the end of
       the synced messages and the size of the segment.
    4. From there on `Behind` is an invariant of all later writes: they store at the write offset or
       behind it, and never in front of the first `n` messages and the first `e` bytes.

  What is recovered behind the synced messages may be garbage: a frame with a torn payload is given
  to readers like any other, since `segment_read` does not look at the checksum.
-/
import Mathlib.Data.Nat.Find
import Mqlog.SegmentSync

namespace Mqlog

open Lib.Mem Lib.Records

/-! ## Sessions -/

inductive SegmentCall where
  | write (buf : Buf)
  | sync

/-- A segment in use: the messages accepted so far, and those accepted before the last sync. -/
structure Session where
  sgm : Segment
  written : List Buf
  synced : List Buf

def Session.step (page : PageSize) (s : Session) : SegmentCall → Session
  | .write buf =>
    let (rc, sgm) := segmentWrite s.sgm buf
    { s with sgm := sgm, written := if 0 ≤ rc then s.written ++ [buf] else s.written }
  | .sync => { s with sgm := (segmentSync page (true, true) s.sgm).2, synced := s.written }

/-- The calls of one thread on a segment without messages. -/
def session (page : PageSize) (sgm : Segment) (calls : List SegmentCall) : Session :=
  calls.foldl (Session.step page) ⟨sgm, [], []⟩

/-- What holds between two calls. -/
structure SessionInv (s : Session) (tail : List UInt8) : Prop where
  holds : Holds s.sgm s.written tail
  written_eq : s.sgm.wOffset.data = (image frame s.written).length + tail.length
  inStep : InStep s.sgm
  synced_prefix : s.synced <+: s.written
  synced_index : s.synced.length ≤ s.sgm.sOffset.index
  synced_data : (image frame s.synced).length ≤ s.sgm.sOffset.data
  size_lt : s.sgm.size < 2 ^ 31

/-- One call preserves the invariant, and the size of the segment. -/
theorem SessionInv.step (page : PageSize) {s : Session} {tail : List UInt8}
    (h : SessionInv s tail) :
    ∀ call : SegmentCall, ∃ tail', SessionInv (s.step page call) tail' ∧
      (s.step page call).sgm.size = s.sgm.size
  | .write buf => by
    have hholds := h.holds
    rcases hholds.segmentWrite_outcome h.written_eq buf with heq | ⟨rfl, heq⟩ | ⟨rfl, hfits, heq⟩
    · rw [Session.step, heq]
      exact ⟨tail, h, rfl⟩
    · have hstep := h.inStep.holding hholds [] eosFrame
        (by rw [List.append_nil, length_eosFrame]; exact Nat.lt_add_of_pos_right (by decide))
      rw [List.append_nil] at hstep
      rw [Session.step, heq]
      exact ⟨eosFrame, ⟨Holds.holding hholds.fits hholds.small (.inr rfl), rfl, hstep,
        h.synced_prefix, h.synced_index, h.synced_data, h.size_lt⟩, rfl⟩
    · have hstep := h.inStep.holding hholds [buf] []
        (by rw [length_image_snoc, headerSize]; omega)
      rw [Session.step, heq]
      simp only [if_pos (Int.natCast_nonneg _)]
      exact ⟨[], ⟨hholds.holding_snoc hfits, rfl, hstep,
        h.synced_prefix.trans (List.prefix_append ..), h.synced_index, h.synced_data,
        h.size_lt⟩, rfl⟩
  | .sync => by
    have hsize := h.size_lt
    have hw := h.holds.written_le_size
    have hcount := h.holds.count
    have hle : 12 * s.written.length + 12 ≤ s.sgm.size := h.holds.count_le
    obtain ⟨hin, hs⟩ := h.inStep.segmentSync page (by omega) (by omega)
    obtain ⟨-, hsize', -, -, -, hw'⟩ := segmentSync_frame page s.sgm (true, true)
    refine ⟨tail, ⟨h.holds.segmentSync _ _, ?_, hin, List.prefix_refl _, ?_, ?_, ?_⟩, hsize'⟩
    · rw [Session.step, hw']
      exact h.written_eq
    · rw [Session.step, hs, hcount]
    · rw [Session.step, hs]
      exact h.holds.le_written
    · rw [Session.step, hsize']
      exact hsize

/-- **Any number of calls** preserve the invariant. -/
theorem SessionInv.run (page : PageSize) :
    ∀ (calls : List SegmentCall) {s : Session} {tail : List UInt8}, SessionInv s tail →
      ∃ tail', SessionInv (calls.foldl (Session.step page) s) tail' ∧
        (calls.foldl (Session.step page) s).sgm.size = s.sgm.size
  | [], _, tail, h => ⟨tail, h, rfl⟩
  | call :: calls, s, _, h => by
    obtain ⟨tail', h', hsize'⟩ := h.step page call
    obtain ⟨tail'', h'', hsize''⟩ := SessionInv.run page calls h'
    exact ⟨tail'', h'', hsize''.trans hsize'⟩

theorem session_inv (page : PageSize) (baseOffset : Nat) {size : Nat} (flags : Nat)
    (h12 : headerSize ≤ size) (hsmall : size < 2 ^ 31) (calls : List SegmentCall) :
    ∃ tail, SessionInv (session page (Segment.fresh baseOffset size flags) calls) tail ∧
      (session page (Segment.fresh baseOffset size flags) calls).sgm.size = size := by
  have hinit : SessionInv ⟨Segment.fresh baseOffset size flags, [], []⟩ [] :=
    ⟨holds_fresh _ _ h12 (Nat.lt_trans hsmall (by decide)), rfl, inStep_fresh ..,
      List.prefix_refl _, Nat.zero_le _, Nat.zero_le _, hsmall⟩
  exact SessionInv.run page calls hinit

/-! ## The crash -/

/-- The contents of the files after a crash: each byte and each entry is the one in memory or the
    one on disk. -/
structure CrashImage (sgm : Segment) (data : Nat → UInt8) (index : Nat → Nat) : Prop where
  data : ∀ p, p < sgm.size → data p = sgm.buffer p ∨ data p = sgm.dataDisk p
  index : ∀ k, k < indexCapacity sgm.size → index k = sgm.index k ∨ index k = sgm.indexDisk k

section Recovery

variable {s : Session} {tail : List UInt8} {data : Nat → UInt8} {index : Nat → Nat}

/-- What is not on disk for sure is there or zero. -/
theorem CrashImage.data_torn (himg : CrashImage s.sgm data index) (h : SessionInv s tail) {p : Nat}
    (hp : p < s.sgm.size) :
    data p = s.sgm.buffer p ∨ (s.sgm.sOffset.data ≤ p ∧ data p = 0) := by
  rcases himg.data p hp with heq | heq
  · exact .inl heq
  · rw [h.inStep.data_disk] at heq
    split at heq
    · exact .inl heq
    · exact .inr ⟨by omega, heq⟩

theorem CrashImage.index_torn (himg : CrashImage s.sgm data index) (h : SessionInv s tail) {k : Nat}
    (hk : k < indexCapacity s.sgm.size) :
    index k = s.sgm.index k ∨ (s.sgm.sOffset.index ≤ k ∧ index k = 0) := by
  rcases himg.index k hk with heq | heq
  · exact .inl heq
  · rw [h.inStep.index_disk] at heq
    split at heq
    · exact .inl heq
    · exact .inr ⟨by omega, heq⟩

theorem SessionInv.synced_le (h : SessionInv s tail) : s.synced.length ≤ s.written.length :=
  h.synced_prefix.length_le

/-- **The synced messages are intact.** -/
theorem CrashImage.stored (himg : CrashImage s.sgm data index) (h : SessionInv s tail)
    (hcap : s.written.length < indexCapacity s.sgm.size) : Stored frame data index s.synced := by
  have hle := h.synced_le
  have hdata := h.synced_data
  have hindex := h.synced_index
  have hbound := h.inStep.data_le
  have hsize := h.holds.written_le_size
  obtain ⟨rest, hrest⟩ := h.synced_prefix
  have hst : Stored frame s.sgm.buffer s.sgm.index s.synced := by
    have hall := h.holds.stored
    rw [← hrest] at hall
    exact hall.of_append
  refine hst.congr (fun p hp => ?_) fun k hk => ?_
  · rcases himg.data_torn h (p := p) (by omega) with heq | ⟨hge, -⟩
    · exact heq
    · omega
  · rcases himg.index_torn h (k := k) (by omega) with heq | ⟨hge, -⟩
    · exact heq
    · omega

/-- An entry that is there holds the position of its message. -/
theorem CrashImage.entry (himg : CrashImage s.sgm data index) (h : SessionInv s tail)
    (hcap : s.written.length < indexCapacity s.sgm.size) {k : Nat} (hk : k < s.written.length)
    (hused : ¬ Free data index k) : index k = start frame s.written k := by
  have htable := h.holds.stored.table k hk
  rcases himg.index_torn h (k := k) (by omega) with heq | ⟨-, hzero⟩
  · exact heq.trans htable
  · -- only entry 0 can be used and zero
    by_cases h0 : k = 0
    · rw [hzero, h0, start_zero]
    · exact absurd ⟨hzero, fun hk0 => h0 hk0.1⟩ hused

/-- A header that is torn gives a smaller size. -/
theorem CrashImage.size_le (himg : CrashImage s.sgm data index) (h : SessionInv s tail) {k : Nat}
    (hk : k < s.written.length) :
    hdrSize data (start frame s.written k) ≤ headerSize + s.written[k].1.length := by
  have hhdr := (stored_message h.holds.stored hk).1
  have hend := start_add_le_image (f := frame) hk
  rw [length_frame] at hend
  have h12 : headerSize = 12 := rfl
  have hfits := h.holds.fits
  have hsmall := h.holds.small
  rw [← hhdr.size_eq (by omega), hdrSize, hdrSize]
  refine get32_le fun i hi => ?_
  rcases himg.data_torn h (p := start frame s.written k + 4 + i) (by omega) with heq | ⟨-, hzero⟩
  · exact .inl heq
  · exact .inr hzero

/-- No entry behind the last message is set. -/
theorem CrashImage.entry_zero (himg : CrashImage s.sgm data index) (h : SessionInv s tail) {k : Nat}
    (hle : s.written.length ≤ k) (hk : k < indexCapacity s.sgm.size) : index k = 0 := by
  rcases himg.index_torn h hk with heq | ⟨-, heq⟩
  · rw [heq, h.holds.index]
    exact padded_of_ge (by rwa [length_starts])
  · exact heq

/-- The scan stops somewhere. -/
theorem CrashImage.exists_free (himg : CrashImage s.sgm data index) (h : SessionInv s tail)
    (hcap : s.written.length < indexCapacity s.sgm.size) (h4096 : 4096 ≤ s.sgm.size) :
    ∃ k, k < indexCapacity s.sgm.size ∧ Free data index k ∧ ∀ j, j < k → ¬ Free data index j := by
  have htwo := two_le_indexCapacity h4096
  have hsome : ∃ k, Free data index k ∧ k < indexCapacity s.sgm.size := by
    -- behind the last message, or in entry 1 when there is none
    rcases Nat.eq_zero_or_pos s.written.length with h0 | hpos
    · exact ⟨1, ⟨himg.entry_zero h (by omega) htwo, fun hone => absurd hone.1 (by decide)⟩, htwo⟩
    · exact ⟨_, ⟨himg.entry_zero h (Nat.le_refl _) hcap,
        fun hlen => absurd hlen.1 (Nat.ne_of_gt hpos)⟩, hcap⟩
  have hdec : DecidablePred (Free data index) := fun _ => inferInstanceAs (Decidable (_ ∧ _))
  obtain ⟨k, hfree, hk⟩ := hsome
  have hfind := Nat.find_min' ⟨k, hfree⟩ hfree
  exact ⟨Nat.find ⟨k, hfree⟩, by omega, Nat.find_spec ⟨k, hfree⟩, fun j hj => Nat.find_min _ hj⟩

/-- A segment whose next message goes behind its first `n` messages and its first `e` bytes. -/
structure Behind (sgm : Segment) (n e : Nat) : Prop where
  index_ge : n ≤ sgm.wOffset.index
  data_ge : e ≤ sgm.wOffset.data
  room : sgm.wOffset.data + headerSize ≤ sgm.size ∨
    (sgm.wOffset.data ≤ sgm.size ∧ markedEos sgm = true)
  count : headerSize * sgm.wOffset.index ≤ sgm.wOffset.data + headerSize
  small : sgm.size < 2 ^ 31

/-- **The recovered write offset lies behind the synced messages.** -/
theorem CrashImage.recovered_behind (himg : CrashImage s.sgm data index) (h : SessionInv s tail)
    (hcap : s.written.length < indexCapacity s.sgm.size) (hsynced : s.synced ≠ []) {i : Nat}
    (hi : i < indexCapacity s.sgm.size) (hfree : Free data index i)
    (hused : ∀ j, j < i → ¬ Free data index j) :
    ∃ w, findWOffsetPair data index (calculateIndexSize s.sgm.size) = some w ∧
      ∀ baseOffset flags, Behind (Segment.reopened baseOffset s.sgm.size flags data index w)
        s.synced.length (image frame s.synced).length := by
  have hst := himg.stored h hcap
  have hle := h.synced_le
  have hn : 0 < s.synced.length := List.length_pos_iff.mpr hsynced
  have hni : s.synced.length ≤ i := by
    rw [← Nat.not_lt]
    exact fun hlt => used_of_stored hst hlt hfree
  have him : i ≤ s.written.length := by
    rw [← Nat.not_lt]
    exact fun hlt => hused _ hlt
      ⟨himg.entry_zero h (Nat.le_refl _) hcap, fun hlen => absurd hlen.1 (by omega)⟩
  obtain ⟨k, rfl⟩ : ∃ k, i = k + 1 := ⟨i - 1, by omega⟩
  have hentry := himg.entry h hcap him (hused k (Nat.lt_succ_self k))
  have hsize := himg.size_le h him
  have hend := start_succ (f := frame) (l := s.written) him
  have hin := start_add_le_image (f := frame) (l := s.written) him
  have hcount : 12 * k ≤ start frame s.written k :=
    mul_le_start headerSize_le_frame (Nat.le_of_succ_le him)
  have hfits := h.holds.fits
  have hsmall := h.size_lt
  have h12 : headerSize = 12 := rfl
  rw [length_frame] at hend hin
  -- the position of the first message that need not be there
  have hsame : ∀ j, j ≤ s.synced.length → start frame s.written j = start frame s.synced j := by
    obtain ⟨rest, hrest⟩ := h.synced_prefix
    intro j hj
    rw [← hrest]
    exact start_append hj
  have hbehind : (image frame s.synced).length ≤
      start frame s.written k + hdrSize data (start frame s.written k) := by
    rw [← start_length]
    rcases Nat.lt_or_ge k s.synced.length with hlt | hge
    · -- the last synced message: its header is intact
      have hlast : s.synced.length = k + 1 := by omega
      have hsucc := start_succ (f := frame) (l := s.synced) hlt
      have hfit := start_add_le_image (f := frame) (l := s.synced) hlt
      have hhdr := (stored_message hst hlt).1
      have hdata := h.synced_data
      have hdle := h.inStep.data_le
      have hwle := h.holds.written_le_size
      rw [length_frame] at hsucc hfit
      rw [hsame k (Nat.le_of_lt hlt), hhdr.size_eq (by omega), hlast, hsucc]
    · rw [← hsame _ (Nat.le_refl _)]
      exact Nat.le_trans (start_mono hge) (Nat.le_add_right ..)
  refine ⟨_, findWOffsetPair_eq (i := k + 1) (by omega) hi hused hfree.1,
    fun baseOffset flags => ?_⟩
  rw [Nat.add_sub_cancel, hentry, Nat.mod_eq_of_lt (by omega), Nat.mod_eq_of_lt (by omega)]
  constructor
  · exact hni
  · exact hbehind
  · exact .inl (show start frame s.written k + hdrSize data (start frame s.written k) + headerSize ≤
      s.sgm.size by omega)
  · show headerSize * (k + 1) ≤
      start frame s.written k + hdrSize data (start frame s.written k) + headerSize
    rw [h12]
    omega
  · exact hsmall

end Recovery

/-! ## Later writes -/

/-- A sequence of writes. -/
def segmentWrites (sgm : Segment) (bufs : List Buf) : Segment :=
  bufs.foldl (fun sgm buf => (segmentWrite sgm buf).2) sgm

/-- The two segments agree on the first `n` entries and the first `e` bytes. -/
def SameBelow (n e : Nat) (sgm sgm' : Segment) : Prop :=
  (∀ p, p < e → sgm'.buffer p = sgm.buffer p) ∧ ∀ k, k < n → sgm'.index k = sgm.index k

theorem SameBelow.refl (n e : Nat) (sgm : Segment) : SameBelow n e sgm sgm :=
  ⟨fun _ _ => rfl, fun _ _ => rfl⟩

theorem SameBelow.trans {n e : Nat} {sgm sgm' sgm'' : Segment} (h : SameBelow n e sgm sgm')
    (h' : SameBelow n e sgm' sgm'') : SameBelow n e sgm sgm'' :=
  ⟨fun p hp => (h'.1 p hp).trans (h.1 p hp), fun k hk => (h'.2 k hk).trans (h.2 k hk)⟩

/-- One write stores behind what it must not touch. -/
theorem Behind.segmentWrite {sgm : Segment} {n e : Nat} (h : Behind sgm n e) (buf : Buf) :
    Behind (segmentWrite sgm buf).2 n e ∧ SameBelow n e sgm (segmentWrite sgm buf).2 := by
  obtain ⟨hn, he, hroom, hcount, hsmall⟩ := h
  have h12 : headerSize = 12 := rfl
  rw [h12] at hroom hcount
  have hsize : sgm.wOffset.data ≤ sgm.size := by omega
  have hbuffer : ∀ l p, p < e → store sgm.buffer sgm.wOffset.data l p = sgm.buffer p :=
    fun l p hp => store_of_lt (Nat.lt_of_lt_of_le hp he)
  rcases segmentWrite_cases sgm buf hsize (by omega) with ⟨-, heq⟩ | ⟨hmark, -, heq⟩ |
    ⟨-, hfits, heq⟩
  · rw [heq]
    exact ⟨⟨hn, he, hroom, hcount, hsmall⟩, SameBelow.refl ..⟩
  · have hroom' : sgm.wOffset.data + 12 ≤ sgm.size := by
      rcases hroom with hroom | ⟨-, hmark'⟩
      · exact hroom
      · rw [hmark] at hmark'
        cases hmark'
    have hmod : (sgm.wOffset.data + headerSize) % 2 ^ 32 = sgm.wOffset.data + 12 := by
      rw [h12]
      omega
    rw [heq, hmod]
    refine ⟨⟨hn, Nat.le_trans he (Nat.le_add_right ..), .inr ⟨hroom', ?_⟩, ?_, hsmall⟩,
      fun p hp => hbuffer _ p hp, fun _ _ => rfl⟩
    · -- the segment is marked now
      exact markedEos_store rfl rfl
    · show headerSize * sgm.wOffset.index ≤ sgm.wOffset.data + 12 + headerSize
      rw [h12]
      omega
  · have hmod : (sgm.wOffset.index + 1) % 2 ^ 32 = sgm.wOffset.index + 1 := by omega
    rw [heq, hmod]
    rw [h12] at hfits
    refine ⟨⟨Nat.le_succ_of_le hn, ?_, .inl ?_, ?_, hsmall⟩, fun p hp => hbuffer _ p hp,
      fun k hk => store_of_lt (Nat.lt_of_lt_of_le hk hn)⟩
    · show e ≤ sgm.wOffset.data + headerSize + buf.1.length
      omega
    · show sgm.wOffset.data + headerSize + buf.1.length + headerSize ≤ sgm.size
      omega
    · show headerSize * (sgm.wOffset.index + 1) ≤
        sgm.wOffset.data + headerSize + buf.1.length + headerSize
      rw [h12]
      omega

/-- **Any number of writes** store behind it. -/
theorem Behind.segmentWrites {n e : Nat} :
    ∀ (bufs : List Buf) {sgm : Segment}, Behind sgm n e → SameBelow n e sgm (segmentWrites sgm bufs)
  | [], sgm, _ => SameBelow.refl n e sgm
  | buf :: bufs, _, h =>
    (h.segmentWrite buf).2.trans (Behind.segmentWrites bufs (h.segmentWrite buf).1)

/-! ## Synced messages survive -/

/-- **Synced messages survive a crash**: the segment opens, reads back every message accepted before
    the last sync, and later writes leave the bytes and entries of these messages alone. -/
theorem synced_survive_crash {page : PageSize} {baseOffset size flags : Nat}
    (hsmall : size < 2 ^ 31) {sgm : Segment} {files : SegmentFiles}
    (hopen : segmentOpen page .ok ⟨none, none⟩ baseOffset size flags = (0, some sgm, files))
    {calls : List SegmentCall} {s : Session} (hrun : session page sgm calls = s)
    (hcap : s.written.length < indexCapacity size) {data : Nat → UInt8} {index : Nat → Nat}
    (himg : CrashImage s.sgm data index) (flags' : Nat) :
    ∃ sgm', segmentOpen page .ok (segmentFiles size data index) baseOffset size flags' =
        (0, some sgm', segmentFiles size data index) ∧
      (∀ i (hi : i < s.synced.length), Reads sgm' i s.synced[i]) ∧
      ∀ bufs, SameBelow s.synced.length (image frame s.synced).length sgm'
        (segmentWrites sgm' bufs) := by
  obtain ⟨h0, hmod, rfl, -⟩ := segmentOpen_new_size hopen
  have h4096 := page.le_of_mod h0 hmod
  obtain ⟨tail, hinv, hsize⟩ := session_inv page baseOffset flags
    (Nat.le_trans (by decide) h4096) hsmall calls
  rw [hrun] at hinv hsize
  subst hsize
  obtain ⟨i, hi, hfree, hused⟩ := himg.exists_free hinv hcap h4096
  by_cases hsynced : s.synced = []
  · -- nothing was synced: all that is left to show is that the segment opens
    obtain ⟨w, hw⟩ : ∃ w, findWOffsetPair data index (calculateIndexSize s.sgm.size) = some w := by
      rcases Nat.eq_zero_or_pos i with rfl | hpos
      · exact ⟨_, findWOffsetPair_empty (Nat.zero_lt_of_lt hi) hfree⟩
      · exact ⟨_, findWOffsetPair_eq hpos hi hused hfree.1⟩
    rw [hsynced]
    exact ⟨_, segmentOpen_files _ _ h0 hmod hw, fun i hi => absurd hi (Nat.not_lt_zero i),
      fun bufs => ⟨fun p hp => absurd hp (Nat.not_lt_zero p),
        fun k hk => absurd hk (Nat.not_lt_zero k)⟩⟩
  · obtain ⟨w, hw, hbehind⟩ := himg.recovered_behind hinv hcap hsynced hi hfree hused
    have hb := hbehind baseOffset flags'
    refine ⟨_, segmentOpen_files _ _ h0 hmod hw, fun i hi => ?_, fun bufs => hb.segmentWrites bufs⟩
    have hend := start_add_le_image (f := frame) hi
    have hframe := headerSize_le_frame s.synced[i]
    have h12 : headerSize = 12 := rfl
    have hdata : (image frame s.synced).length ≤ w.data := hb.data_ge
    have hindex : s.synced.length ≤ w.index := hb.index_ge
    have hdle := hinv.inStep.data_le
    have hsd := hinv.synced_data
    have hwle := hinv.holds.written_le_size
    refine reads_of_stored (himg.stored hinv hcap) hi (Nat.lt_of_lt_of_le hi hindex) ?_ (by omega)
    rw [readBoundary]
    show start frame s.synced i < if flags' &&& sgmRdcmt = sgmRdcmt then w.data else w.data
    rw [ite_self]
    omega

/-- Two messages are synced, a third one is lost except for its index entry. -/
theorem synced_survive_crash_of_three :
    let s := session page4096 (Segment.fresh 0 4096 0)
      [.write ⟨[0x61], by decide⟩, .write ⟨[0x62, 0x63], by decide⟩, .sync,
        .write ⟨[0x64], by decide⟩]
    ∃ sgm', segmentOpen page4096 .ok (segmentFiles 4096 s.sgm.dataDisk s.sgm.index) 0 4096 0 =
        (0, some sgm', segmentFiles 4096 s.sgm.dataDisk s.sgm.index) ∧
      (∀ i (hi : i < s.synced.length), Reads sgm' i s.synced[i]) ∧
      ∀ bufs, SameBelow s.synced.length (image frame s.synced).length sgm'
        (segmentWrites sgm' bufs) :=
  synced_survive_crash (by decide) (segmentOpen_new _ _ (by decide) (by decide)) rfl (by decide)
    ⟨fun _ _ => .inr rfl, fun _ _ => .inl rfl⟩ 0

end Mqlog
