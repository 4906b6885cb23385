/-
  A process that is killed while its threads write to a segment.

  The mappings are shared with the files, so a kill leaves in the files what is in memory
  (`closedFiles`), after any number of the stores of any number of claims.  `segment_open` takes the
  claims up to the first one whose index entry is missing; of these every byte is there, since the
  entry is stored last.  The entry of the first claim is 0 also when it is missing; in its place
  counts the header, whose flags come behind all other bytes.  So what is recovered is a prefix of
  the accepted messages, and it ends in front of a message whose `segment_write` has not returned
  (`killed_recovers`).  The messages behind that one are lost, those that were acknowledged too;
  every message in front of it is kept.

    1. What is in the files: what is mapped, as nothing is stored behind the end of the data and,
       with room left in the index, none behind the end of the index.
    2. The scan.  Up to the first claim with stores left all entries are set (`ClaimsInv.entry`),
       and the entry of that claim is zero.
    3. What is opened (`Recovers`): the first `n` messages, a write offset behind the last of them,
       and every later write behind that.  The bytes of the claims which were lost are still in the
       file, and later frames are stored over them.

  Two conditions are about what the scan needs.  The index has a free entry, and a segment that is
  sealed has a message: a lone end-of-segment frame would be taken for one.

  With one writer at a time, as in a log, the message that is missing is the last one; the loss is
  then that of a message which was not acknowledged, and no other (`LogKill`).
-/
import Mqlog.SegmentClose
import Mqlog.SegmentCrash
import Mqlog.SegmentSerial

namespace Mqlog

open Lib (run Along)
open Lib.Mem Lib.Records

/-! ## What is in the files -/

/-- What is mapped is in the files, when there is nothing behind them. -/
theorem closedFiles_of_clear {sgm : Segment} (hdata : ∀ p, sgm.size ≤ p → sgm.buffer p = 0)
    (hindex : ∀ k, indexCapacity sgm.size ≤ k → sgm.index k = 0) :
    closedFiles sgm = segmentFiles sgm.size sgm.buffer sgm.index := by
  have hbuffer : (fun i => if i < sgm.size then sgm.buffer i else 0) = sgm.buffer := by
    funext i
    split
    · rfl
    · rename_i hi
      exact (hdata i (Nat.not_lt.mp hi)).symm
  have hentries : (fun k => if k < indexCapacity sgm.size then sgm.index k else 0) = sgm.index := by
    funext k
    split
    · rfl
    · rename_i hk
      exact (hindex k (Nat.not_lt.mp hk)).symm
  calc closedFiles sgm
      = segmentFiles sgm.size (fun i => if i < sgm.size then sgm.buffer i else 0)
          (fun k => if k < indexCapacity sgm.size then sgm.index k else 0) := rfl
    _ = _ := by rw [hbuffer, hentries]

/-- The flags of a frame stay empty until they are stored. -/
theorem flags_empty {curr : OffsetPair} {buf : Buf} {done rest : List Store}
    (h : done ++ rest = frameStores curr buf) (hrest : 1 < rest.length) :
    hdrFlags (written (fun _ => 0) done) curr.data = headerFlagsEmpty := by
  rw [frameStores_eq] at h
  have hsub := subset_of_append_eq h (by rw [List.length_cons, List.length_singleton]; omega)
  exact hdrFlags_written done (fun st hst => leavesFlags_unready (hsub hst)) rfl

namespace SerialInv

variable {size : Nat} {fresh : Segment} {s : SegState} {k : Nat}

/-- **How far a claim has got whose entry `segment_open` takes, and one whose entry it does not
    take.** -/
theorem used_or_free (h : SerialInv size fresh s) (hk : k < (payloads s.claims).length) :
    (¬ Free s.sgm.buffer s.sgm.index k ∧
      s.Shown k (start frame (payloads s.claims) k) (payloads s.claims)[k] ∧
      s.sgm.index k = start frame (payloads s.claims) k) ∨
    (Free s.sgm.buffer s.sgm.index k ∧
      ∃ c ∈ s.claims, c.frame = some (payloads s.claims)[k] ∧ c.base.index = k ∧
        s.left c ≠ []) := by
  obtain ⟨c, hc, hframe, hbase⟩ := h.claim_eq hk
  have hsome : c.frame ≠ none := by
    rw [hframe]
    exact Option.some_ne_none _
  have hindex : c.base.index = k := by rw [hbase]
  have hentry := h.claims.entry c hc hsome
  rw [hindex, show c.base.data = start frame (payloads s.claims) k by rw [hbase]] at hentry
  rcases Nat.eq_zero_or_pos k with rfl | hpos
  · -- the entry is 0 either way: the header decides
    rw [start_zero, ite_self] at hentry
    rw [start_zero] at hbase ⊢
    obtain ⟨done, hdone, hbytes⟩ := h.claims.progress c hc
    rw [Claim.stores, hframe] at hdone
    have hbase0 : c.base.data = 0 := by rw [hbase]
    have hflags : hdrFlags s.sgm.buffer 0 = hdrFlags (written (fun _ => 0) done) c.base.data := by
      rw [hbase0]
      have hstop : 2 ≤ c.stop := by
        rw [Claim.stop, Claim.size, hframe, hbase]
        show 2 ≤ 0 + (headerSize + _)
        have h12 : headerSize = 12 := rfl
        omega
      exact get16_congr fun i hi => hbytes (0 + i) (by omega) (by omega)
    rcases Nat.lt_or_ge 1 (s.left c).length with hlt | hle
    · refine .inr ⟨⟨hentry, ?_⟩, c, hc, hframe, hindex, List.ne_nil_of_length_pos (by omega)⟩
      rintro ⟨-, hhdr⟩
      rw [protIsHeader, hflags, flags_empty hdone hlt] at hhdr
      exact absurd hhdr (by decide)
    · have hshown : s.Shown 0 0 (payloads s.claims)[0] := ⟨c, hc, hframe, hbase, hle⟩
      refine .inl ⟨?_, hshown, hentry⟩
      have hload := (h.claims.shown_bytes hshown).2
      rw [frame, load_add] at hload
      obtain ⟨hhdr, -⟩ := List.append_inj hload (by rw [length_load, length_headerBytes])
      have hready := HeaderAt.flags_eq hhdr (by decide)
      intro hfree
      refine hfree.2 ⟨rfl, ?_⟩
      rw [protIsHeader, hready]
      rfl
  · have hstart := start_pos hk (Nat.ne_of_gt hpos)
    by_cases hleft : s.left c = []
    · rw [if_pos hleft] at hentry
      refine .inl ⟨fun hfree => ?_, ⟨c, hc, hframe, hbase, by rw [hleft]; exact Nat.zero_le 1⟩,
        hentry⟩
      have hzero := hfree.1
      omega
    · rw [if_neg hleft] at hentry
      exact .inr ⟨⟨hentry, fun hzero => Nat.ne_of_gt hpos hzero.1⟩, c, hc, hframe, hindex, hleft⟩

/-- The entry behind the last claim is free, unless the segment was sealed before it got a
    message. -/
theorem free_behind (h : SerialInv size fresh s)
    (hfirst : s.sealed = true → payloads s.claims ≠ []) :
    Free s.sgm.buffer s.sgm.index (payloads s.claims).length := by
  have hoffset := h.offset
  refine ⟨h.claims.clear_index _ (by rw [hoffset]), ?_⟩
  rintro ⟨hzero, hhdr⟩
  have hnil := List.length_eq_zero_iff.mp hzero
  have hsealed : s.sealed = false := by
    rw [← Bool.not_eq_true]
    exact fun hs => hfirst hs hnil
  rw [h.image_eq, hnil, hsealed] at hoffset
  have hclear : ∀ p, s.sgm.buffer p = 0 :=
    fun p => h.claims.clear p (by rw [hoffset]; exact Nat.zero_le p)
  rw [protIsHeader, hdrFlags, get16, hclear, hclear] at hhdr
  exact absurd hhdr (by decide)

/-- The messages that are recovered are stored. -/
theorem stored_take (h : SerialInv size fresh s) {n : Nat} (hn : n ≤ (payloads s.claims).length)
    (hused : ∀ j, j < n → ¬ Free s.sgm.buffer s.sgm.index j) :
    Stored frame s.sgm.buffer s.sgm.index ((payloads s.claims).take n) := by
  have hlength : ((payloads s.claims).take n).length = n := by
    rw [List.length_take, Nat.min_eq_left hn]
  have hstart : ∀ j, j ≤ n → start frame ((payloads s.claims).take n) j =
      start frame (payloads s.claims) j := by
    intro j hj
    have hsplit : payloads s.claims = (payloads s.claims).take n ++ (payloads s.claims).drop n :=
      (List.take_append_drop n _).symm
    conv_rhs => rw [hsplit]
    exact (start_append (by rwa [hlength])).symm
  have hshown : ∀ j (_ : j < n) (_ : j < (payloads s.claims).length),
      s.Shown j (start frame (payloads s.claims) j) (payloads s.claims)[j] ∧
        s.sgm.index j = start frame (payloads s.claims) j := by
    intro j hj hlt
    rcases h.used_or_free hlt with ⟨-, hshown⟩ | ⟨hfree, -⟩
    · exact hshown
    · exact absurd hfree (hused j hj)
  refine stored_of_records (fun j hj => ?_) fun j hj => ?_
  · rw [hlength] at hj
    rw [hstart j (Nat.le_of_lt hj), List.getElem_take, length_frame]
    exact (h.claims.shown_bytes (hshown j hj (Nat.lt_of_lt_of_le hj hn)).1).2
  · rw [hlength] at hj
    rw [hstart j (Nat.le_of_lt hj)]
    exact (hshown j hj (Nat.lt_of_lt_of_le hj hn)).2

/-- The claims that are recovered are followed by one that is not stored, or by none. -/
theorem exists_free (h : SerialInv size fresh s)
    (hfirst : s.sealed = true → payloads s.claims ≠ []) :
    ∃ n, n ≤ (payloads s.claims).length ∧ Free s.sgm.buffer s.sgm.index n ∧
      ∀ j, j < n → ¬ Free s.sgm.buffer s.sgm.index j := by
  have hdec : DecidablePred (Free s.sgm.buffer s.sgm.index) :=
    fun _ => inferInstanceAs (Decidable (_ ∧ _))
  have hsome : ∃ n, Free s.sgm.buffer s.sgm.index n := ⟨_, h.free_behind hfirst⟩
  exact ⟨Nat.find hsome, Nat.find_min' hsome (h.free_behind hfirst), Nat.find_spec hsome,
    fun j hj => Nat.find_min hsome hj⟩

end SerialInv

/-! ## What a segment keeps -/

/-- The segment begins with the messages `ps`, and shows them; anything may be behind them. -/
structure Keeps (sgm : Segment) (ps : List Buf) : Prop where
  stored : Stored frame sgm.buffer sgm.index ps
  count : sgm.wOffset.index = ps.length
  shows : (image frame ps).length ≤ readBoundary sgm
  small : (image frame ps).length < 2 ^ 32

/-- The next message goes behind the messages `ps`. -/
structure WritesBehind (sgm : Segment) (ps : List Buf) : Prop where
  written : sgm.wOffset.data = (image frame ps).length
  room : (image frame ps).length + headerSize ≤ sgm.size
  small : sgm.size < 2 ^ 32

section Keeps

variable {sgm : Segment} {ps : List Buf}

theorem Keeps.reads (h : Keeps sgm ps) {k : Nat} (hk : k < ps.length) : Reads sgm k ps[k] := by
  have hend := start_add_le_image (f := frame) hk
  have hframe := headerSize_le_frame ps[k]
  have h12 : headerSize = 12 := rfl
  have hshows := h.shows
  exact reads_of_stored h.stored hk (by rw [h.count]; exact hk) (by omega) h.small

theorem Holds.keeps (h : Holds sgm ps []) (hflags : sgm.flags &&& sgmRdcmt ≠ sgmRdcmt) :
    Keeps sgm ps ∧ WritesBehind sgm ps := by
  have hfits := h.fits
  have hsmall := h.small
  refine ⟨⟨h.stored, h.count, ?_, by omega⟩, h.written_eq, hfits, hsmall⟩
  rw [readBoundary, if_neg hflags]
  exact h.le_written

/-- **A write behind the messages**: it is refused, but not for lack of room in a segment without
    messages, and the messages stay; or it is one more message. -/
theorem Keeps.write (h : Keeps sgm ps) (hbehind : WritesBehind sgm ps)
    (hflags : sgm.flags &&& sgmRdcmt ≠ sgmRdcmt) (buf : Buf) :
    (∃ sgm', segmentWrite sgm buf = (ELEOS, sgm') ∧ Keeps sgm' ps ∧
      (ps = [] → sgm.size < buf.1.length + 2 * headerSize)) ∨
    (∃ sgm', segmentWrite sgm buf = ((buf.1.length : Int), sgm') ∧ Keeps sgm' (ps ++ [buf]) ∧
      WritesBehind sgm' (ps ++ [buf]) ∧ sgm'.flags = sgm.flags ∧ sgm'.size = sgm.size) := by
  obtain ⟨hwritten, hroom, hsmall⟩ := hbehind
  have h12 : headerSize = 12 := rfl
  have hcount : 12 * ps.length ≤ (image frame ps).length :=
    mul_length_le_image headerSize_le_frame ps
  have himage := length_image_snoc ps buf
  rcases segmentWrite_cases sgm buf (by omega) hsmall with ⟨hmark, heq⟩ | ⟨-, hfull, heq⟩ |
    ⟨-, hfits, heq⟩
  · refine .inl ⟨sgm, heq, h, ?_⟩
    rintro rfl
    rw [markedEos, hwritten] at hmark
    cases hmark
  · refine .inl ⟨_, heq, ⟨?_, h.count, ?_, h.small⟩, ?_⟩
    · refine h.stored.congr (fun p hp => ?_) fun _ _ => rfl
      exact store_of_lt (by rw [hwritten]; exact hp)
    · rw [readBoundary, if_neg hflags]
      show _ ≤ (sgm.wOffset.data + headerSize) % 2 ^ 32
      omega
    · rintro rfl
      rw [hwritten, image_nil, List.length_nil] at hfull
      omega
  · refine .inr ⟨_, heq, ⟨?_, ?_, ?_, by omega⟩, ⟨?_, ?_, hsmall⟩, rfl, rfl⟩
    · have hstored := h.stored.snoc buf
      rw [← hwritten, ← h.count] at hstored
      exact hstored
    · show (sgm.wOffset.index + 1) % 2 ^ 32 = (ps ++ [buf]).length
      rw [h.count, List.length_append, List.length_singleton, Nat.mod_eq_of_lt (by omega)]
    · rw [readBoundary, if_neg hflags]
      show _ ≤ sgm.wOffset.data + headerSize + buf.1.length
      omega
    · show sgm.wOffset.data + headerSize + buf.1.length = _
      omega
    · show _ ≤ sgm.size
      omega

end Keeps

/-! ## Recovery -/

/-- The segment `sgm'` has the first messages of `ps` up to one that is in flight in `s`, and every
    later write to it leaves them alone. -/
structure Recovers (s : SegState) (ps : List Buf) (sgm' : Segment) : Prop where
  le : sgm'.wOffset.index ≤ ps.length
  next : sgm'.wOffset.index < ps.length → ∃ c ∈ s.claims, c.frame = ps[sgm'.wOffset.index]? ∧
    c.base.index = sgm'.wOffset.index ∧ s.left c ≠ []
  written : sgm'.wOffset.data = (image frame (ps.take sgm'.wOffset.index)).length
  reads : ∀ i buf, i < sgm'.wOffset.index → ps[i]? = some buf → Reads sgm' i buf
  later : sgm'.size < 2 ^ 31 → ∀ bufs,
    SameBelow sgm'.wOffset.index sgm'.wOffset.data sgm' (segmentWrites sgm' bufs)

/-- **What the files of a killed segment open as.** -/
theorem SerialInv.recovers {page : PageSize} {base size flags : Nat} {s : SegState}
    (h : SerialInv size (Segment.fresh base size flags) s) (h0 : 0 < size)
    (hmod : size % page.bytes = 0) (hsmall : size < 2 ^ 32)
    (hcap : (payloads s.claims).length < indexCapacity size)
    (hfirst : s.sealed = true → payloads s.claims ≠ []) (flags' : Nat) :
    ∃ sgm', segmentOpen page .ok (closedFiles s.sgm) base size flags' =
      (0, some sgm', closedFiles s.sgm) ∧
      sgm'.baseOffset = base ∧ sgm'.size = size ∧ sgm'.flags = flags' ∧
        Recovers s (payloads s.claims) sgm' ∧
      Keeps sgm' ((payloads s.claims).take sgm'.wOffset.index) ∧
      WritesBehind sgm' ((payloads s.claims).take sgm'.wOffset.index) := by
  have h4096 := page.le_of_mod h0 hmod
  have h12 : headerSize = 12 := rfl
  have hsize : s.sgm.size = size := h.seals.size_eq
  have hoffset := h.offset
  have hfits := h.fits
  obtain ⟨m, hm, hfree, hused⟩ := h.exists_free hfirst
  have hlength : ((payloads s.claims).take m).length = m := by
    rw [List.length_take, Nat.min_eq_left hm]
  have hstored := h.stored_take hm hused
  have himage : (image frame ((payloads s.claims).take m)).length ≤
      (image frame (payloads s.claims)).length := by
    have hle := start_mono (f := frame) (l := payloads s.claims) hm
    rwa [start_length] at hle
  -- nothing is behind the files
  have hfiles : closedFiles s.sgm = segmentFiles size s.sgm.buffer s.sgm.index := by
    rw [closedFiles_of_clear, hsize]
    · intro p hp
      exact h.claims.clear p (Nat.le_trans h.seals.written_le (hsize ▸ hp))
    · intro k hk
      refine h.claims.clear_index k ?_
      rw [hoffset]
      exact Nat.le_trans (Nat.le_of_lt hcap) (hsize ▸ hk)
  have hroom : ((payloads s.claims).take m).length < calculateIndexSize size / indexEntrySize := by
    rw [hlength]
    exact Nat.lt_of_le_of_lt hm hcap
  have hfound := findWOffsetPair_stored hstored hroom (by rwa [hlength]) (by omega)
  rw [hlength] at hfound
  have hkeeps : Keeps (Segment.reopened base size flags' s.sgm.buffer s.sgm.index
      ⟨m, (image frame ((payloads s.claims).take m)).length⟩) ((payloads s.claims).take m) := by
    refine ⟨hstored, hlength.symm, ?_, by omega⟩
    rw [readBoundary]
    show _ ≤
      if flags' &&& sgmRdcmt = sgmRdcmt then (image frame ((payloads s.claims).take m)).length
      else (image frame ((payloads s.claims).take m)).length
    rw [ite_self]
  rw [hfiles]
  refine ⟨_, segmentOpen_files base flags' h0 hmod hfound, rfl, rfl, rfl, ⟨hm, ?_, rfl, ?_, ?_⟩,
    hkeeps, rfl, ?_, hsmall⟩
  · intro hlt
    have hlt' : m < (payloads s.claims).length := hlt
    rcases h.used_or_free hlt' with ⟨hnot, -⟩ | ⟨-, c, hc, hframe, hindex, hleft⟩
    · exact absurd hfree hnot
    · exact ⟨c, hc, hframe.trans (List.getElem?_eq_getElem hlt').symm, hindex, hleft⟩
  · intro i buf hi hbuf
    obtain ⟨hlt, rfl⟩ := List.getElem?_eq_some_iff.mp hbuf
    have hread := hkeeps.reads (k := i) (by rwa [hlength])
    rwa [List.getElem_take] at hread
  · intro h31 bufs
    have hcount := mul_length_le_image headerSize_le_frame ((payloads s.claims).take m)
    rw [hlength] at hcount
    refine Behind.segmentWrites bufs ⟨Nat.le_refl _, Nat.le_refl _, .inl ?_, ?_, h31⟩
    · show (image frame ((payloads s.claims).take m)).length + headerSize ≤ size
      omega
    · show headerSize * m ≤ (image frame ((payloads s.claims).take m)).length + headerSize
      omega
  · show (image frame ((payloads s.claims).take m)).length + headerSize ≤ size
    omega

end Mqlog
