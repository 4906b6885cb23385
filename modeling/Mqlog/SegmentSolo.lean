/-
  A thread that runs alone.

  The accesses of `SegmentThreads` are those of the functions of `Segment`: when no other thread
  makes a step between the call and the return, the segment is afterwards what `segmentWrite` makes
  of it (`solo_write`), and what is returned is what `segmentRead` returns (`solo_read`).

  This connects the two models of `segment.c`, the one by functions and the one by accesses.  They
  are translated from the same lines of the source, and this module compares them: a call followed
  by the accesses of the same thread, as many as there are, leads from one to the other.

    * `Alone s k t` is such a run; it is built from the end, one access more in front
      (`Alone.head`).
    * The stores behind a claim are a loop in the one model and a composition of `store`s in the
      other (`foldl_frameStores`); `memcpy` is the only one of them with a loop of its own.
    * `Answers` is the same for a read, which leaves the segment as it is.

  A write makes one claim at most, and the claims of the run say which: none when the segment counts
  as sealed, else one at the write offset, for a frame or for the end-of-segment frame.  Without
  other threads the compare-and-swap succeeds.
-/
import Mqlog.SegmentStores

namespace Mqlog

open Lib (run)
open Lib.Mem

/-- Thread `k` alone takes the state `s` to `t`. -/
def Alone (k : Nat) (s t : SegState) : Prop :=
  ∃ m, run segStep s (List.replicate m (k, .access)) = some t

section Solo

variable {s s' t : SegState} {k : Nat}

theorem Alone.refl (k : Nat) (s : SegState) : Alone k s s := ⟨0, rfl⟩

/-- One access more in front. -/
theorem Alone.head {pc : SegPc} (hk : s.threads[k]? = some pc) (haccess : s.access k pc = some s')
    (h : Alone k s' t) : Alone k s t := by
  obtain ⟨m, hrun⟩ := h
  refine ⟨m + 1, Lib.run_cons_eq_some.mpr ⟨s', ?_, hrun⟩⟩
  simp only [segStep, hk, haccess]

theorem goto_getElem? (hk : k < s.threads.length) (pc : SegPc) :
    (s.goto k pc).threads[k]? = some pc := List.getElem?_set_self hk

theorem length_goto (s : SegState) (k : Nat) (pc : SegPc) :
    (s.goto k pc).threads.length = s.threads.length := List.length_set

/-- A thread that has returned is where it was. -/
theorem set_idle (hk : s.threads[k]? = some .idle) : s.threads.set k .idle = s.threads := by
  obtain ⟨hlt, hidle⟩ := List.getElem?_eq_some_iff.mp hk
  rw [← hidle, List.set_getElem_self]

/-- The stores of a claim, one after the other. -/
theorem alone_storing {c : Claim} : ∀ (rest : List Store) {s : SegState}, k < s.threads.length →
    s.threads[k]? = some (.storing c rest) →
    ∃ t, Alone k s t ∧ t.sgm = rest.foldl Store.run s.sgm ∧ t.threads = s.threads.set k .idle ∧
      t.claims = s.claims
  | [], s, _, hk => ⟨_, .head hk rfl (.refl k _), rfl, rfl, rfl⟩
  | st :: rest, s, hlt, hk => by
    obtain ⟨t, halone, hsgm, hthreads, hclaims⟩ := alone_storing rest (s := s.stored k c st rest)
      (Nat.lt_of_lt_of_eq hlt (length_goto s k _).symm) (goto_getElem? hlt _)
    refine ⟨t, .head hk rfl halone, hsgm, hthreads.trans ?_, hclaims⟩
    show (s.threads.set k _).set k _ = _
    rw [List.set_set]

/-- `memcpy` stores the payload. -/
theorem foldl_memcpyStores : ∀ (l : List UInt8) (pos : Nat) (sgm : Segment),
    (memcpyStores pos l).foldl Store.run sgm = { sgm with buffer := store sgm.buffer pos l }
  | [], pos, sgm => by
    rw [store_nil]
    rfl
  | c :: l, pos, sgm => by
    rw [memcpyStores, List.foldl_cons, foldl_memcpyStores l, Store.run]
    dsimp only
    rw [store_append (by rw [List.length_singleton])]
    rfl

theorem foldl_headerInitStores (hdr : Nat) (sgm : Segment) :
    (headerInitStores hdr).foldl Store.run sgm =
      { sgm with buffer := headerInit sgm.buffer hdr } := rfl

/-- The stores of a frame are those of `segment_write`. -/
theorem foldl_frameStores (curr : OffsetPair) (buf : Buf) (sgm : Segment) :
    (frameStores curr buf).foldl Store.run sgm =
      { sgm with
        buffer := setFlags (setSize (setCrc32 (headerInit
          (store sgm.buffer (curr.data + headerSize) buf.1) curr.data) curr.data
            (crc32 0 buf.1).toNat) curr.data ((headerSize + buf.1.length) % 2 ^ 64)) curr.data
              headerFlagsReady
        index := store sgm.index curr.index [curr.data] } := by
  rw [frameStores, List.foldl_append, List.foldl_append, foldl_memcpyStores, foldl_headerInitStores]
  rfl

/-- `segment_write` behind `marked_eos`. -/
theorem alone_writeOffset {buf : Buf} (hlt : k < s.threads.length)
    (hk : s.threads[k]? = some (.writeOffset buf)) (hmark : markedEos s.sgm = false) :
    ∃ t, Alone k s t ∧ t.sgm = (segmentWrite s.sgm buf).2 ∧ t.threads = s.threads.set k .idle ∧
      t.claims = s.claims ++ [claimOf s.sgm k buf s.sgm.wOffset] := by
  generalize hc : claimOf s.sgm k buf s.sgm.wOffset = c
  have hclaim : (s.goto k (.claiming buf s.sgm.wOffset)).access k (.claiming buf s.sgm.wOffset) =
      some ((s.goto k (.claiming buf s.sgm.wOffset)).claimed k c) := by
    have hgoto : claimOf (s.goto k (.claiming buf s.sgm.wOffset)).sgm k buf s.sgm.wOffset = c := hc
    have hself : claim (s.goto k (.claiming buf s.sgm.wOffset)).sgm s.sgm.wOffset c.new =
        (0, { s.sgm with wOffset := c.new }) := if_pos rfl
    simp only [SegState.access, hgoto, hself, ne_eq, not_true_eq_false, if_false]
    rfl
  have hlt' : k < (s.goto k (.claiming buf s.sgm.wOffset)).threads.length := by
    rw [length_goto]
    exact hlt
  have hlt'' : k < ((s.goto k (.claiming buf s.sgm.wOffset)).claimed k c).threads.length :=
    Nat.lt_of_lt_of_eq hlt' (length_goto _ k _).symm
  obtain ⟨t, halone, hsgm, hthreads, hclaims⟩ := alone_storing c.stores
    (s := (s.goto k (.claiming buf s.sgm.wOffset)).claimed k c) hlt'' (goto_getElem? hlt' _)
  refine ⟨t, .head hk rfl (.head (goto_getElem? hlt _) hclaim halone), hsgm.trans ?_,
    hthreads.trans ?_, hclaims⟩
  · show c.stores.foldl Store.run { s.sgm with wOffset := c.new } = _
    rw [claimOf] at hc
    rw [segmentWrite, if_neg (by rw [hmark]; exact Bool.false_ne_true)]
    by_cases hfull : (s.sgm.size + (2 ^ 64 - s.sgm.wOffset.data)) % 2 ^ 64 <
        (headerSize + (headerSize + buf.1.length) % 2 ^ 64) % 2 ^ 64
    · rw [if_pos hfull] at hc
      simp only [if_pos hfull, markEos, claim, if_true, ne_eq, not_true_eq_false, if_false]
      subst hc
      rfl
    · rw [if_neg hfull] at hc
      simp only [if_neg hfull, claim, if_true, ne_eq, not_true_eq_false, if_false]
      subst hc
      show (frameStores s.sgm.wOffset buf).foldl Store.run _ = _
      rw [foldl_frameStores]
      rfl
  · show ((s.threads.set k _).set k _).set k _ = _
    rw [List.set_set, List.set_set]

/-- **A write that no other thread interrupts** is `segmentWrite`. -/
theorem solo_write (hk : s.threads[k]? = some .idle) (buf : Buf) :
    ∃ m t, run segStep s ((k, .write buf) :: List.replicate m (k, .access)) = some t ∧
      t.sgm = (segmentWrite s.sgm buf).2 ∧ t.threads = s.threads ∧
      t.claims = s.claims ++ if markedEos s.sgm then [] else
        [claimOf s.sgm k buf s.sgm.wOffset] := by
  have hlt := (List.getElem?_eq_some_iff.mp hk).1
  -- the accesses behind the call
  suffices hsuffices : ∃ t, Alone k (s.goto k (.markedOffset buf)) t ∧
      t.sgm = (segmentWrite s.sgm buf).2 ∧ t.threads = s.threads.set k .idle ∧
      t.claims = s.claims ++ if markedEos s.sgm then [] else [claimOf s.sgm k buf s.sgm.wOffset] by
    obtain ⟨t, ⟨m, hrun⟩, hsgm, hthreads, hclaims⟩ := hsuffices
    refine ⟨m, t, Lib.run_cons_eq_some.mpr ⟨s.goto k (.markedOffset buf), ?_, hrun⟩, hsgm,
      hthreads.trans (set_idle hk), hclaims⟩
    simp only [segStep, hk]
  have hmarked := goto_getElem? hlt (.markedOffset buf)
  have hlt₁ : k < (s.goto k (.markedOffset buf)).threads.length := by
    rw [length_goto]
    exact hlt
  by_cases hzero : s.sgm.wOffset.data < headerSize
  · have hmark : markedEos s.sgm = false := if_pos hzero
    obtain ⟨t, halone, hsgm, hthreads, hclaims⟩ := alone_writeOffset
      (s := (s.goto k (.markedOffset buf)).goto k (.writeOffset buf))
        (by rw [length_goto]; exact hlt₁)
      (goto_getElem? hlt₁ _) hmark
    refine ⟨t, .head hmarked (if_pos hzero) halone, hsgm, hthreads.trans ?_, ?_⟩
    · show ((s.threads.set k _).set k _).set k _ = _
      rw [List.set_set, List.set_set]
    · rw [if_neg (by rw [hmark]; exact Bool.false_ne_true)]
      exact hclaims
  · have hmark : markedEos s.sgm =
        decide (hdrFlags s.sgm.buffer (s.sgm.wOffset.data - headerSize) = headerFlagsEos) :=
      if_neg hzero
    generalize hhdr : s.sgm.wOffset.data - headerSize = hdr at hmark
    have hflags := goto_getElem? hlt₁ (.markedFlags buf hdr)
    have hfirst : (s.goto k (.markedOffset buf)).access k (.markedOffset buf) =
        some ((s.goto k (.markedOffset buf)).goto k (.markedFlags buf hdr)) := by
      rw [← hhdr]
      exact if_neg hzero
    have hlt₂ : k <
        ((s.goto k (.markedOffset buf)).goto k (.markedFlags buf hdr)).threads.length := by
      rw [length_goto]
      exact hlt₁
    by_cases heos : hdrFlags s.sgm.buffer hdr = headerFlagsEos
    · rw [decide_eq_true heos] at hmark
      refine ⟨_, .head hmarked hfirst (.head hflags (if_pos heos) (.refl k _)), ?_, ?_, ?_⟩
      · rw [segmentWrite, if_pos hmark]
        rfl
      · show ((s.threads.set k _).set k _).set k _ = _
        rw [List.set_set, List.set_set]
      · rw [if_pos hmark]
        exact (List.append_nil _).symm
    · rw [decide_eq_false heos] at hmark
      obtain ⟨t, halone, hsgm, hthreads, hclaims⟩ := alone_writeOffset
        (s := ((s.goto k (.markedOffset buf)).goto k (.markedFlags buf hdr)).goto k
          (.writeOffset buf))
        (by rw [length_goto]; exact hlt₂) (goto_getElem? hlt₂ _) hmark
      refine ⟨t, .head hmarked hfirst (.head hflags (if_neg heos) halone), hsgm, hthreads.trans ?_,
        ?_⟩
      · show (((s.threads.set k _).set k _).set k _).set k _ = _
        rw [List.set_set, List.set_set, List.set_set]
      · rw [if_neg (by rw [hmark]; exact Bool.false_ne_true)]
        exact hclaims

/-- Thread `k` alone returns `r` from `segment_read`, and changes nothing. -/
def Answers (k relativeOffset : Nat) (r : Int × Frame) (s : SegState) : Prop :=
  ∃ t, Alone k s t ∧ t.sgm = s.sgm ∧ t.threads = s.threads.set k .idle ∧
    t.returned = s.returned ++ [⟨relativeOffset, r.1, r.2⟩]

theorem Answers.goto {relativeOffset : Nat} {r : Int × Frame} {pc pc' : SegPc}
    (hk : s.threads[k]? = some pc) (haccess : s.access k pc = some (s.goto k pc'))
    (h : Answers k relativeOffset r (s.goto k pc')) : Answers k relativeOffset r s := by
  obtain ⟨t, halone, hsgm, hthreads, hreturned⟩ := h
  refine ⟨t, .head hk haccess halone, hsgm, hthreads.trans ?_, hreturned⟩
  show (s.threads.set k _).set k _ = _
  rw [List.set_set]

theorem Answers.answer {relativeOffset : Nat} {rc : Int} {fr : Frame} {pc : SegPc}
    (hk : s.threads[k]? = some pc)
    (haccess : s.access k pc = some (s.answer k relativeOffset rc fr)) :
    Answers k relativeOffset (rc, fr) s :=
  ⟨_, .head hk haccess (.refl k _), rfl, rfl, rfl⟩

/-- `segment_read` from the flags of the header on. -/
theorem answers_flags {relativeOffset hdr : Nat} (hlt : k < s.threads.length)
    (hk : s.threads[k]? = some (.flags relativeOffset hdr)) :
    Answers k relativeOffset
      (if hdrFlags s.sgm.buffer hdr = headerFlagsReady then
        (toSsize (framePayloadSize s.sgm.buffer hdr), ⟨some hdr, some (hdr + headerSize)⟩)
      else if hdrFlags s.sgm.buffer hdr = headerFlagsEos then (ELEOS, ⟨some hdr, none⟩)
      else (ELINVHD, ⟨none, none⟩)) s := by
  by_cases hready : hdrFlags s.sgm.buffer hdr = headerFlagsReady
  · rw [if_pos hready]
    exact .goto hk (if_pos hready) (.answer (goto_getElem? hlt _) rfl)
  rw [if_neg hready]
  by_cases heos : hdrFlags s.sgm.buffer hdr = headerFlagsEos
  · rw [if_pos heos]
    exact .answer hk ((if_neg hready).trans (if_pos heos))
  · rw [if_neg heos]
    exact .answer hk ((if_neg hready).trans (if_neg heos))

/-- **A read that no other thread interrupts** is `segmentRead`. -/
theorem solo_read (hk : s.threads[k]? = some .idle) (relativeOffset : Nat) :
    ∃ m t, run segStep s ((k, .read relativeOffset) :: List.replicate m (k, .access)) = some t ∧
      t.sgm = s.sgm ∧ t.threads = s.threads ∧ t.returned = s.returned ++
        [⟨relativeOffset, (segmentRead s.sgm relativeOffset).1,
          (segmentRead s.sgm relativeOffset).2⟩] := by
  have hlt := (List.getElem?_eq_some_iff.mp hk).1
  -- the accesses behind the call
  suffices hsuffices : Answers k relativeOffset (segmentRead s.sgm relativeOffset)
      (s.goto k (.boundary relativeOffset)) by
    obtain ⟨t, ⟨m, hrun⟩, hsgm, hthreads, hreturned⟩ := hsuffices
    refine ⟨m, t, Lib.run_cons_eq_some.mpr ⟨s.goto k (.boundary relativeOffset), ?_, hrun⟩, hsgm,
      ?_, hreturned⟩
    · simp only [segStep, hk]
    · rw [hthreads]
      show (s.threads.set k _).set k _ = _
      rw [List.set_set, set_idle hk]
  generalize hs : s.goto k (.boundary relativeOffset) = s₁
  have hsgm : s.sgm = s₁.sgm := by
    rw [← hs]
    rfl
  have hboundary : s₁.threads[k]? = some (.boundary relativeOffset) := by
    rw [← hs]
    exact goto_getElem? hlt _
  have hlt₁ : k < s₁.threads.length := by
    rw [← hs, length_goto]
    exact hlt
  rw [hsgm, segmentRead]
  dsimp only
  generalize hb : (if s₁.sgm.flags &&& sgmRdcmt = sgmRdcmt then s₁.sgm.sOffset.data
    else s₁.sgm.wOffset.data) = boundary
  have hfirst : s₁.access k (.boundary relativeOffset) =
      some (s₁.goto k (.entries relativeOffset boundary)) := by
    rw [← hb]
    rfl
  refine .goto hboundary hfirst ?_
  have hlt₂ : k < (s₁.goto k (.entries relativeOffset boundary)).threads.length := by
    rw [length_goto]
    exact hlt₁
  have hentries := goto_getElem? hlt₁ (.entries relativeOffset boundary)
  by_cases hcount : s₁.sgm.wOffset.index ≤ relativeOffset
  · rw [if_pos hcount]
    exact .answer hentries (if_pos hcount)
  rw [if_neg hcount]
  refine .goto hentries (if_neg hcount) ?_
  have hentry := goto_getElem? hlt₂ (.entry relativeOffset boundary)
  by_cases hzero : relativeOffset ≠ 0 ∧ s₁.sgm.index relativeOffset = 0
  · rw [if_pos hzero]
    exact .answer hentry (if_pos hzero)
  rw [if_neg hzero]
  by_cases hbound : boundary ≤ s₁.sgm.index relativeOffset
  · rw [if_pos hbound]
    exact .answer hentry ((if_neg hzero).trans (if_pos hbound))
  rw [if_neg hbound]
  refine .goto hentry ((if_neg hzero).trans (if_neg hbound)) ?_
  have hlt₃ : k < ((s₁.goto k (.entries relativeOffset boundary)).goto k
      (.entry relativeOffset boundary)).threads.length := by
    rw [length_goto]
    exact hlt₂
  refine answers_flags ?_ (goto_getElem? hlt₃ _)
  rw [length_goto]
  exact hlt₃

end Solo

end Mqlog
