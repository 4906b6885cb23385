/-
  What `mqlog_write` does to a log.

  A write ends in one of four ways (`Growing.write`, `Growing.refuse`, `Blocked.refuse`):

  * the last segment takes the message;
  * it does not, and a new segment that starts at the next offset takes it;
  * the message is too large for any segment: the new segment is sealed, closed and left behind as a
    file at the next offset, and the call returns `ELNOWCP`;
  * such a file is there already: the segment opened from it counts as sealed, so the call returns
    `ELNOWCP` whatever the message is.

  The last two leave the index alone but seal the last segment, so from then on every write ends in
  the last way: `Blocked` is an invariant.

  The proofs follow the two halves of `mqlog_trywrite`.

    1. The first half asks the last segment.  `Growing.last_refuses` says what is left of it when it
       does not take the message: it counts as sealed, by an end-of-segment frame or by a message
       that ends like one, and it holds what it held.  A sealed segment has nothing behind its write
       offset that a read would find.
    2. The second half starts a segment (`startSegment`).  There are three outcomes, by what is in
       the directory at the next offset and by the size of the message: `startSegment_fits` where
       nothing is in the way, and `startSegment_refused` for the other two.
    3. `LogInv.start` and `LogInv.start_refused` put the log together again, with
       `LogInv.replace_last` for the segment that was left and `LogInv.add` for the new one.

  `Grows` is what an accepted write does to the list of slots, `Seals` what a refused one does; the
  runs of the other modules only look at these two.

  All system calls succeed here.  What a failing allocation or a failing `segment_open` does to the
  index is the subject of `LogIndex`.
-/
import Mqlog.LogCases
import Mqlog.LogInv
import Mqlog.SegmentCreate

namespace Mqlog

open Lib Lib.Mem Lib.Records

/-! ## Segments of a log -/

section Calls

variable {page : PageSize} {lg : MqLog}

/-- `segment_open` that succeeds puts the segment at a new address and its files into the
    directory. -/
theorem openSegment_eq (hcalls : lg.calls = LogCalls.ok) {b size flags : Nat} {sgm : Segment}
    {files : SegmentFiles}
    (h : segmentOpen page .ok (lg.dir.files b) b size flags = (0, some sgm, files)) :
    openSegment page lg b size flags = (0, some lg.segs.next,
      { lg with segs := lg.segs.alloc sgm, dir := lg.dir.put b files }) := by
  obtain ⟨size', flags', index, locked, segs, dir, calls⟩ := lg
  obtain rfl : calls = LogCalls.ok := hcalls
  have h' : segmentOpen page OpenCalls.ok (dir.files b) b size flags = (0, some sgm, files) := h
  simp only [openSegment, LogCalls.ok, List.headD_nil, List.tail_nil, h']

/-- `segment_close` that succeeds frees the segment and leaves its files in the directory. -/
theorem closeSegment_eq (lg : MqLog) (hcalls : lg.calls = LogCalls.ok) {addr : Nat}
    {sgm sgm' : Segment} {files : SegmentFiles} (hget : lg.segs.get addr = some sgm)
    (h : segmentClose page (true, true) sgm = (0, sgm', some files)) :
    closeSegment page lg addr = some (0,
      { lg with segs := lg.segs.free addr, dir := lg.dir.put sgm'.baseOffset files }) := by
  obtain ⟨size', flags', index, locked, segs, dir, calls⟩ := lg
  obtain rfl : calls = LogCalls.ok := hcalls
  have hget' : segs.get addr = some sgm := hget
  simp only [closeSegment, LogCalls.ok, List.headD_nil, List.tail_nil, hget', Option.bind_eq_bind,
    Option.bind_some, h]
  rfl

theorem createFlags_and (lg : MqLog) : createFlags lg &&& sgmRdcmt = lg.flags &&& mqlogRdcmt := by
  rw [createFlags]
  split
  · rename_i h
    rw [h]
    rfl
  · rename_i h
    rw [mqlogRdcmt, Nat.and_one_is_mod] at h ⊢
    rw [show sgmRddrt &&& sgmRdcmt = 0 by decide]
    omega

end Calls

/-! ## The second half of a write -/

section Trywrite

variable (page : PageSize) (lg : MqLog) {addr : Nat} {sgm sgm' : Segment} {buf : Buf}

/-- An accepted write returns no error code. -/
theorem length_ne_eleos (buf : Buf) : ((buf.1.length : Nat) : Int) ≠ ELEOS := by
  have hpos : (0 : Int) ≤ (buf.1.length : Nat) := Int.natCast_nonneg _
  rw [ELEOS]
  omega

/-- The first message opens the segment with base offset 0. -/
theorem mqlogTrywrite_first (buf : Buf) (h : mbptreeLastValue lg.index = some none) :
    mqlogTrywrite page lg buf = startSegment page lg 0 buf := by
  rw [mqlogTrywrite, h]
  rfl

/-- The last segment has room for the message. -/
theorem mqlogTrywrite_room (h : mbptreeLastValue lg.index = some (some addr))
    (hget : lg.segs.get addr = some sgm)
    (hwrite : segmentWrite sgm buf = ((buf.1.length : Int), sgm')) :
    mqlogTrywrite page lg buf =
      some ((buf.1.length : Int), { lg with segs := lg.segs.set addr sgm' }) := by
  rw [mqlogTrywrite, h]
  simp only [Option.bind_eq_bind, Option.bind_some, mqlogTrywriteTo, writeSegment, hget, hwrite,
    Option.pure_def, length_ne_eleos, false_and, if_false, Bool.false_eq_true]

/-- The last segment is full: the message goes into a new one, based at the write offset. -/
theorem mqlogTrywrite_next (h : mbptreeLastValue lg.index = some (some addr))
    (hget : lg.segs.get addr = some sgm) (hwrite : segmentWrite sgm buf = (ELEOS, sgm')) :
    mqlogTrywrite page lg buf =
      startSegment page { lg with segs := lg.segs.set addr sgm' }
        (segmentWriteOffset sgm') buf := by
  rw [mqlogTrywrite, h]
  simp only [Option.bind_eq_bind, Option.bind_some, mqlogTrywriteTo, writeSegment, hget, hwrite,
    Option.pure_def, Bool.false_eq_true, and_false, if_false, if_true]
  exact mqlogTrywriteNext_eq (Heap.get_set_self hget)

/-- A new segment that takes the message is added to the index. -/
theorem mqlogTrywriteTo_new {es : List Data} (hget : lg.segs.get addr = some sgm)
    (hwrite : segmentWrite sgm buf = ((buf.1.length : Int), sgm'))
    (htree : TreeHolds branchFactor lg.index es) (hkey : ∀ e ∈ es, e.key < sgm'.baseOffset) :
    ∃ index, mqlogTrywriteTo page lg addr true buf = some ((buf.1.length : Int),
        { lg with segs := lg.segs.set addr sgm', index := index }) ∧
      TreeHolds branchFactor index (es ++ [⟨sgm'.baseOffset, addr⟩]) := by
  have hset : (lg.segs.set addr sgm').get addr = some sgm' := Heap.get_set_self hget
  obtain ⟨index, happend, hindex, -⟩ :=
    mbptreeAppend_spec three_le_branchFactor htree sgm'.baseOffset addr
  rw [sortedAppend, if_pos hkey] at happend hindex
  refine ⟨index, ?_, hindex⟩
  rw [mqlogTrywriteTo]
  simp only [Option.bind_eq_bind, Option.bind_some, writeSegment, hget, hwrite, Option.pure_def,
    length_ne_eleos, false_and, if_false, if_true, indexSegment, hset, segmentBaseOffset, happend]
  rfl

/-- A new segment that refuses the message is closed. -/
theorem mqlogTrywriteTo_refused (hcalls : lg.calls = LogCalls.ok) {sgm'' : Segment}
    {files : SegmentFiles} (hget : lg.segs.get addr = some sgm)
    (hwrite : segmentWrite sgm buf = (ELEOS, sgm'))
    (hclose : segmentClose page (true, true) sgm' = (0, sgm'', some files)) :
    mqlogTrywriteTo page lg addr true buf = some (ELNOWCP,
      { lg with segs := (lg.segs.set addr sgm').free addr,
                dir := lg.dir.put sgm''.baseOffset files }) := by
  have hset : (lg.segs.set addr sgm').get addr = some sgm' := Heap.get_set_self hget
  have hclosed := closeSegment_eq { lg with segs := lg.segs.set addr sgm' }
    hcalls hset hclose
  rw [mqlogTrywriteTo]
  simp only [Option.bind_eq_bind, Option.bind_some, writeSegment, hget, hwrite, Option.pure_def,
    and_true, if_true, hclosed]

end Trywrite

/-! ## A new segment -/

/-- The two logs differ in the index, the directory and the segment at the next address only. -/
structure SameBut (lg lg' : MqLog) : Prop where
  size_eq : lg'.size = lg.size
  flags_eq : lg'.flags = lg.flags
  locked_eq : lg'.locked = lg.locked
  calls_eq : lg'.calls = lg.calls
  segs_eq : ∀ a, a < lg.segs.next → lg'.segs.get a = lg.segs.get a

section Start

variable {page : PageSize} (lg : MqLog) {b : Nat} {buf : Buf}

theorem createSegment_eq (hcalls : lg.calls = LogCalls.ok) {sgm : Segment} {files : SegmentFiles}
    (h : segmentOpen page .ok (lg.dir.files b) b (lg.size % 2 ^ 32) (createFlags lg) =
      (0, some sgm, files)) :
    createSegment page lg b = (0, some lg.segs.next,
      { lg with segs := lg.segs.alloc sgm, dir := lg.dir.put b files }) :=
  openSegment_eq hcalls h

/-- Where there are no files, none are in the way. -/
theorem Dir.Only.unused {dir : Dir} {bases : List Nat} (h : dir.Only bases) {b : Nat}
    (hb : b ∉ bases) (size : Nat) : (dir.files b).Unused size := by
  rw [h.files_eq_none hb]
  exact SegmentFiles.unused_none size

/-- **A message that fits goes into a new segment**, which is added to the index. -/
theorem startSegment_fits (h0 : 0 < lg.size % 2 ^ 32) (hmod : lg.size % 2 ^ 32 % page.bytes = 0)
    (hcalls : lg.calls = LogCalls.ok) (hfiles : (lg.dir.files b).Unused (lg.size % 2 ^ 32))
    {es : List Data} (htree : TreeHolds branchFactor lg.index es) (hkey : ∀ e ∈ es, e.key < b)
    (hfits : buf.1.length + 2 * headerSize ≤ lg.size % 2 ^ 32) :
    ∃ lg' sgm, startSegment page lg b buf = some ((buf.1.length : Int), lg') ∧ SameBut lg lg' ∧
      (∃ files, lg'.dir = lg.dir.put b files) ∧
      TreeHolds branchFactor lg'.index (es ++ [⟨b, lg.segs.next⟩]) ∧
      SlotHolds lg' b ⟨lg.segs.next, [buf], [], 0⟩ sgm := by
  have h4096 := page.le_of_mod h0 hmod
  have h12 : headerSize = 12 := rfl
  have hsmall : lg.size % 2 ^ 32 < 2 ^ 32 := Nat.mod_lt _ (by decide)
  have hopen := segmentOpen_unused b (createFlags lg) h0 hmod hfiles
  have hholds : Holds (Segment.fresh b (lg.size % 2 ^ 32) (createFlags lg)) [] [] :=
    holds_fresh _ _ (by omega) hsmall
  have hwrite := hholds.segmentWrite_fits looksSealed_nil buf
    (by rw [image_nil, List.length_nil, Nat.zero_add, Nat.add_comm]; exact hfits)
  rw [startSegment, createSegment_eq lg hcalls hopen]
  obtain ⟨index, heq, hindex⟩ := mqlogTrywriteTo_new page
    { lg with segs := lg.segs.alloc (Segment.fresh b (lg.size % 2 ^ 32) (createFlags lg)),
              dir := lg.dir.put b (segmentFiles (lg.size % 2 ^ 32) (fun _ => 0) fun _ => 0) }
    (Heap.get_alloc_self ..) hwrite htree hkey
  refine ⟨_, (Segment.fresh b (lg.size % 2 ^ 32) (createFlags lg)).holding [buf] [], heq,
    ⟨rfl, rfl, rfl, rfl, fun a ha => ?_⟩, ⟨_, rfl⟩, hindex, ?_⟩
  · show (Heap.set _ _ _).get a = _
    rw [Heap.get_set_of_ne (Nat.ne_of_lt ha), Heap.get_alloc, if_neg (Nat.ne_of_lt ha)]
  · exact
      { get := Heap.get_set_self (Heap.get_alloc_self ..)
        holds := hholds.holding_snoc
          (by rw [image_nil, List.length_nil, Nat.zero_add, Nat.add_comm]; exact hfits)
        base_eq := rfl
        size_eq := rfl
        flags_eq := createFlags_and lg
        synced_eq := rfl
        synced_le := Nat.zero_le _
        synced_index_le := Nat.zero_le _ }

/-- A refused write leaves the files of a sealed segment behind. -/
theorem mqlogTrywriteTo_sealed (hcalls : lg.calls = LogCalls.ok) {addr : Nat} {sgm sgm' : Segment}
    (hget : lg.segs.get addr = some sgm) (hwrite : segmentWrite sgm buf = (ELEOS, sgm'))
    (hdata : sgm'.sOffset.data ≤ sgm'.wOffset.data)
    (hindex : sgm'.sOffset.index ≤ sgm'.wOffset.index) (hsmall : sgm'.wOffset.data < 2 ^ 31)
    (hsmall' : sgm'.wOffset.index < 2 ^ 31) :
    mqlogTrywriteTo page lg addr true buf = some (ELNOWCP,
      { lg with segs := (lg.segs.set addr sgm').free addr,
                dir := lg.dir.put sgm'.baseOffset (closedFiles sgm') }) := by
  obtain ⟨sgm'', hclose, hbase⟩ := segmentClose_eq page hdata hindex hsmall hsmall'
  rw [mqlogTrywriteTo_refused page lg hcalls hget hwrite hclose, hbase]

/-- **A message that does not fit, or an old sealed segment in the way**: the write is refused, and
    there is a sealed segment in the way afterwards. -/
theorem startSegment_refused (h0 : 0 < lg.size % 2 ^ 32)
    (hmod : lg.size % 2 ^ 32 % page.bytes = 0) (hcalls : lg.calls = LogCalls.ok)
    (hfiles : (lg.dir.files b = ⟨none, none⟩ ∧ lg.size % 2 ^ 32 < buf.1.length + 2 * headerSize) ∨
      SealedFiles (lg.size % 2 ^ 32) (lg.dir.files b)) :
    ∃ lg', startSegment page lg b buf = some (ELNOWCP, lg') ∧ SameBut lg lg' ∧
      lg'.index = lg.index ∧ SealedFiles (lg.size % 2 ^ 32) (lg'.dir.files b) := by
  have h4096 := page.le_of_mod h0 hmod
  have h12 : headerSize = 12 := rfl
  have hsmall : lg.size % 2 ^ 32 < 2 ^ 32 := Nat.mod_lt _ (by decide)
  -- opened in one way or the other, the new segment refuses the message and closes as a sealed one
  obtain ⟨sgm, sgm', files, hopen, hwrite, hstuck, hbase, hdle, hile, hds, his⟩ :
      ∃ sgm sgm' files, segmentOpen page .ok (lg.dir.files b) b (lg.size % 2 ^ 32)
        (createFlags lg) =
          (0, some sgm, files) ∧ segmentWrite sgm buf = (ELEOS, sgm') ∧
        SealedFiles (lg.size % 2 ^ 32) (closedFiles sgm') ∧ sgm'.baseOffset = b ∧
        sgm'.sOffset.data ≤ sgm'.wOffset.data ∧ sgm'.sOffset.index ≤ sgm'.wOffset.index ∧
        sgm'.wOffset.data < 2 ^ 31 ∧ sgm'.wOffset.index < 2 ^ 31 := by
    rcases hfiles with ⟨hnone, hfull⟩ | hstuck
    · have hholds : Holds (Segment.fresh b (lg.size % 2 ^ 32) (createFlags lg)) [] [] :=
        holds_fresh _ _ (by omega) hsmall
      rw [hnone]
      refine ⟨_, _, _, segmentOpen_new _ _ h0 hmod, hholds.segmentWrite_full looksSealed_nil buf ?_,
        ?_, rfl, Nat.zero_le _, Nat.zero_le _, ?_, ?_⟩
      · rw [image_nil, List.length_nil, Nat.zero_add, Nat.add_comm]
        exact hfull
      · exact sealedFiles_closed (Segment.holding _ [] eosFrame) (fun p _ => rfl) fun k _ => rfl
      · show (0 : Nat) + 12 < 2 ^ 31
        decide
      · show (0 : Nat) < 2 ^ 31
        decide
    · obtain ⟨sgm, hopen, hmark, hclosed, hbase, hs, hw⟩ :=
        segmentOpen_sealed b (createFlags lg) h0 hmod hstuck
      refine ⟨sgm, sgm, _, hopen, segmentWrite_marked hmark buf, hclosed, hbase, ?_, ?_, ?_, ?_⟩
      · rw [hs]
      · rw [hs]
      · rw [hw]
        show (12 : Nat) < 2 ^ 31
        decide
      · rw [hw]
        show (1 : Nat) < 2 ^ 31
        decide
  rw [startSegment, createSegment_eq lg hcalls hopen]
  refine ⟨_, mqlogTrywriteTo_sealed
    { lg with segs := lg.segs.alloc sgm, dir := lg.dir.put b files } hcalls
    (Heap.get_alloc_self ..) hwrite hdle hile hds his,
    ⟨rfl, rfl, rfl, rfl, fun a ha => ?_⟩, rfl, ?_⟩
  · show (Heap.free _ _).get a = _
    rw [Heap.get_free, if_neg (Nat.ne_of_lt ha), Heap.get_set_of_ne (Nat.ne_of_lt ha),
      Heap.get_alloc, if_neg (Nat.ne_of_lt ha)]
  · show SealedFiles _ ((Dir.put _ _ _).files b)
    rw [hbase, Dir.files_put]
    exact hstuck

end Start

/-! ## The states of a log -/

/-- A log that takes every message that fits into a segment. -/
structure Growing (lg : MqLog) (l : List Slot) : Prop where
  inv : LogInv lg l
  unsealed : ∀ s ∈ l.getLast?, s.tail = []
  only : lg.dir.Only (starts Slot.ps l)

/-- A log that takes no message: the last segment is sealed, and at the next offset there is a
    sealed segment already. -/
structure Blocked (lg : MqLog) (l : List Slot) : Prop where
  inv : LogInv lg l
  sealed : ∀ s sgm, s ∈ l.getLast? → lg.segs.get s.addr = some sgm → markedEos sgm = true
  files : SealedFiles (lg.size % 2 ^ 32) (lg.dir.files (messages l).length)

/-- The last segment does not take the message. -/
def LastFull (size : Nat) (buf : Buf) (s : Slot) : Prop :=
  looksSealed s.ps = true ∨ size < (image frame s.ps).length + 2 * headerSize + buf.1.length

/-- One more message, in segments of `size` bytes. -/
inductive Grows (size : Nat) (buf : Buf) : List Slot → List Slot → Prop where
  | first (addr : Nat) : Grows size buf [] [⟨addr, [buf], [], 0⟩]
  | room (l : List Slot) (s : Slot) :
      Grows size buf (l ++ [s]) (l ++ [{ s with ps := s.ps ++ [buf] }])
  | next (l : List Slot) (s : Slot) (tail : List UInt8) (addr : Nat) : LastFull size buf s →
      Grows size buf (l ++ [s]) (l ++ [{ s with tail := tail }] ++ [⟨addr, [buf], [], 0⟩])

/-- The last segment is sealed. -/
inductive Seals : List Slot → List Slot → Prop where
  | none : Seals [] []
  | last (l : List Slot) (s : Slot) (tail : List UInt8) : Seals (l ++ [s]) (l ++
      [{ s with tail := tail }])

/-- A write that succeeds appends its message. -/
theorem Grows.messages_eq {size : Nat} {buf : Buf} {l l' : List Slot} (h : Grows size buf l l') :
    messages l' = messages l ++ [buf] := by
  cases h with
  | first addr => rfl
  | room l s => rw [messages_snoc, messages_snoc, List.append_assoc]
  | next l s tail addr _ => rw [messages_snoc, messages_snoc, messages_snoc]

theorem Seals.messages_eq {l l' : List Slot} (h : Seals l l') : messages l' = messages l := by
  cases h with
  | none => rfl
  | last l s tail => rw [messages_snoc, messages_snoc]

section Steps

variable {page : PageSize} {lg : MqLog} {l : List Slot} {buf : Buf}

/-- The mutex around a write. -/
theorem mqlogWrite_unlocked (hlocked : lg.locked = false) (hne : buf.1.length ≠ 0) {written : Int}
    {lg' : MqLog} (hwrite : mqlogTrywrite page { lg with locked := true } buf =
      some (written, lg')) :
    mqlogWrite page lg buf = some (written, { lg' with locked := false }) := by
  rw [mqlogWrite, if_neg hne, if_neg (by rw [hlocked]; exact Bool.false_ne_true), hwrite]
  rfl

theorem mqlogWrite_eq (h : LogInv lg l) (hne : buf.1.length ≠ 0) {written : Int} {lg' : MqLog}
    (hwrite : mqlogTrywrite page { lg with locked := true } buf = some (written, lg')) :
    mqlogWrite page lg buf = some (written, { lg' with locked := false }) :=
  mqlogWrite_unlocked h.unlocked hne hwrite

/-- No segment starts at the next offset. -/
theorem LogInv.next_not_mem (h : LogInv lg l) : (messages l).length ∉ starts Slot.ps l := by
  intro hmem
  obtain ⟨k, hk, heq⟩ := List.getElem_of_mem hmem
  have hentry := getElem_starts hk
  rw [length_starts] at hk
  have hlt := h.key_lt ⟨base l k, l[k].addr⟩ (List.mem_of_getElem? (getElem?_indexEntries hk))
  have hbase : base l k = (messages l).length := hentry.symm.trans heq
  exact absurd hbase (Nat.ne_of_lt hlt)

/-- A new segment at the end of a log. -/
theorem LogInv.start (h : LogInv lg l) (honly : lg.dir.Only (starts Slot.ps l))
    (h0 : 0 < lg.size % 2 ^ 32) (hmod : lg.size % 2 ^ 32 % page.bytes = 0)
    (hfits : buf.1.length + 2 * headerSize ≤ lg.size % 2 ^ 32) :
    ∃ lg', startSegment page { lg with locked := true } (messages l).length buf =
        some ((buf.1.length : Int), lg') ∧
      Growing { lg' with locked := false } (l ++ [⟨lg.segs.next, [buf], [], 0⟩]) ∧
      lg'.size = lg.size ∧ lg'.flags = lg.flags := by
  obtain ⟨lg', sgm, heq, hsame, ⟨files, hdir⟩, htree, hslot⟩ :=
    startSegment_fits { lg with locked := true } h0 hmod h.calls
      (honly.unused h.next_not_mem _) h.tree h.key_lt hfits
  refine ⟨lg', heq, ⟨?_, fun s hs => ?_, ?_⟩, hsame.size_eq, hsame.flags_eq⟩
  · exact h.add { lg' with locked := false } htree hsame.segs_eq hsame.size_eq
      hsame.flags_eq rfl hsame.calls_eq (Nat.le_refl _) (List.cons_ne_nil _ _)
      (hslot.congr rfl rfl rfl)
  · rw [List.getLast?_concat] at hs
    rw [← Option.some.inj hs]
  · show lg'.dir.Only _
    rw [hdir, starts_snoc]
    exact (honly.mono (List.subset_append_left ..)).put
      (List.mem_append_right _ (List.mem_singleton_self _)) files

/-- No new segment at the end of a log. -/
theorem LogInv.start_refused (h : LogInv lg l) (buf : Buf) (h0 : 0 < lg.size % 2 ^ 32)
    (hmod : lg.size % 2 ^ 32 % page.bytes = 0)
    (hfiles : (lg.dir.files (messages l).length = ⟨none, none⟩ ∧
        lg.size % 2 ^ 32 < buf.1.length + 2 * headerSize) ∨
      SealedFiles (lg.size % 2 ^ 32) (lg.dir.files (messages l).length))
    (hsealed : ∀ s sgm, s ∈ l.getLast? → lg.segs.get s.addr = some sgm → markedEos sgm = true) :
    ∃ lg', startSegment page { lg with locked := true } (messages l).length buf =
        some (ELNOWCP, lg') ∧ Blocked { lg' with locked := false } l ∧ lg'.size = lg.size ∧
      lg'.flags = lg.flags := by
  obtain ⟨lg', heq, hsame, hindex, hstuck⟩ := startSegment_refused
    { lg with locked := true } h0 hmod h.calls hfiles
  have hsegs : ∀ s ∈ l, lg'.segs.get s.addr = lg.segs.get s.addr := fun s hs =>
    hsame.segs_eq _ (h.addr_lt s hs)
  refine ⟨lg', heq, ⟨?_, fun s sgm hs hget => ?_, ?_⟩, hsame.size_eq, hsame.flags_eq⟩
  · exact h.congr { lg' with locked := false } hindex hsegs hsame.size_eq hsame.flags_eq rfl
      hsame.calls_eq
  · have hget' : lg'.segs.get s.addr = some sgm := hget
    rw [hsegs s (List.mem_of_getLast? hs)] at hget'
    exact hsealed s sgm hs hget'
  · show SealedFiles (lg'.size % 2 ^ 32) _
    rw [hsame.size_eq]
    exact hstuck

/-- **The last segment does not take the message**: it counts as sealed afterwards, and holds what
    it held. -/
theorem Growing.last_refuses {s : Slot} (h : Growing lg (l ++ [s]))
    (hfull : LastFull (lg.size % 2 ^ 32) buf s) :
    ∃ sgm sgm' tail, SlotHolds lg (messages l).length s sgm ∧
      segmentWrite sgm buf = (ELEOS, sgm') ∧ markedEos sgm' = true ∧
      SlotHolds { lg with segs := lg.segs.set s.addr sgm' } (messages l).length
        { s with tail := tail } sgm' := by
  have htail : s.tail = [] := h.unsealed s (by rw [List.getLast?_concat]; rfl)
  obtain ⟨sgm, hsgm⟩ := h.inv.last
  have hholds := hsgm.holds
  rw [htail] at hholds
  have hset : (lg.segs.set s.addr sgm).get s.addr = some sgm := Heap.get_set_self hsgm.get
  cases hlook : looksSealed s.ps with
  | true =>
    have hmark := hholds.markedEos_eq.trans hlook
    refine ⟨sgm, sgm, s.tail, hsgm, segmentWrite_marked hmark buf, hmark, ?_⟩
    exact hsgm.congr (hset.trans hsgm.get.symm) rfl rfl
  | false =>
    have hsize : sgm.size < (image frame s.ps).length + 2 * headerSize + buf.1.length := by
      rcases hfull with hmark | hsize
      · rw [hlook] at hmark
        cases hmark
      · rw [hsgm.size_eq]
        exact hsize
    have hsealed : Holds (sgm.holding s.ps eosFrame) s.ps eosFrame :=
      Holds.holding hholds.fits hholds.small (.inr rfl)
    refine ⟨sgm, _, eosFrame, hsgm, hholds.segmentWrite_full hlook buf hsize,
      hsealed.markedEos_sealed rfl, ?_⟩
    exact
      { get := Heap.get_set_self hsgm.get
        holds := hsealed
        base_eq := hsgm.base_eq
        size_eq := hsgm.size_eq
        flags_eq := hsgm.flags_eq
        synced_eq := hsgm.synced_eq
        synced_le :=
          Nat.le_trans hsgm.synced_le (by rw [hholds.written_eq]; exact Nat.le_add_right ..)
        synced_index_le :=
          Nat.le_trans hsgm.synced_index_le (by rw [hholds.count]; exact Nat.le_refl _) }

/-- The offset at which the segment behind the last one starts. -/
theorem SlotHolds.writeOffset {b : Nat} {s : Slot} {sgm : Segment} (h : SlotHolds lg b s sgm) :
    segmentWriteOffset sgm = b + s.ps.length := by
  rw [segmentWriteOffset, h.base_eq, h.holds.count]

/-- The log after a refusal by its last segment, and what is left of the write. -/
theorem Growing.last_refused (page : PageSize) (buf : Buf) {s : Slot} (h : Growing lg (l ++ [s]))
    (hfull : LastFull (lg.size % 2 ^ 32) buf s) :
    ∃ lg₁ tail, mqlogTrywrite page { lg with locked := true } buf =
        startSegment page { lg₁ with locked := true } (messages (l ++ [s])).length buf ∧
      LogInv lg₁ (l ++ [{ s with tail := tail }]) ∧ lg₁.dir = lg.dir ∧ lg₁.size = lg.size ∧
      lg₁.flags = lg.flags ∧ lg₁.segs.next = lg.segs.next ∧
      ∀ sgm, lg₁.segs.get s.addr = some sgm → markedEos sgm = true := by
  obtain ⟨sgm, sgm', tail, hsgm, hwrite, hmark, hslot⟩ := h.last_refuses hfull
  refine ⟨{ lg with segs := lg.segs.set s.addr sgm' }, tail, ?_, ?_, rfl, rfl, rfl, rfl, ?_⟩
  · have hlast := h.inv.lastValue
    rw [List.getLast?_concat] at hlast
    have hoffset : segmentWriteOffset sgm' = (messages (l ++ [s])).length := by
      rw [hslot.writeOffset, messages_snoc, List.length_append]
    rw [← hoffset]
    exact mqlogTrywrite_next page { lg with locked := true } hlast hsgm.get hwrite
  · exact h.inv.replace_last rfl (fun a ha => Heap.get_set_of_ne ha) rfl rfl h.inv.unlocked rfl rfl
      (h.inv.nonempty s (List.mem_append_right _ (List.mem_singleton_self _))) hslot
  · intro sgm'' hget
    rw [hslot.get] at hget
    rwa [← Option.some.inj hget]

/-- **A message that fits into a segment is appended to the log.** -/
theorem Growing.write (h : Growing lg l) (h0 : 0 < lg.size % 2 ^ 32)
    (hmod : lg.size % 2 ^ 32 % page.bytes = 0) (hne : buf.1.length ≠ 0)
    (hfits : buf.1.length + 2 * headerSize ≤ lg.size % 2 ^ 32) :
    ∃ lg' l', mqlogWrite page lg buf = some ((buf.1.length : Int), lg') ∧ Growing lg' l' ∧
      Grows (lg.size % 2 ^ 32) buf l l' ∧ lg'.size = lg.size ∧ lg'.flags = lg.flags := by
  rcases List.eq_nil_or_concat l with rfl | ⟨l, s, rfl⟩
  · -- the first segment
    obtain ⟨lg', heq, hgrow, hsize, hflags⟩ := h.inv.start h.only h0 hmod hfits
    have hfirst := mqlogTrywrite_first page { lg with locked := true } buf
      h.inv.lastValue
    exact ⟨_, _, mqlogWrite_eq h.inv hne (hfirst.trans heq), hgrow, .first _, hsize, hflags⟩
  · rw [List.concat_eq_append] at *
    by_cases hfull : LastFull (lg.size % 2 ^ 32) buf s
    · -- a new segment
      obtain ⟨lg₁, tail, htry, hinv, hdir, hsize₁, hflags₁, -, -⟩ :=
        h.last_refused page buf hfull
      have hmsgs : messages (l ++ [{ s with tail := tail }]) = messages (l ++ [s]) := by
        rw [messages_snoc, messages_snoc]
      have honly : lg₁.dir.Only (starts Slot.ps (l ++ [{ s with tail := tail }])) := by
        have hstarts := h.only
        rw [starts_snoc] at hstarts
        rw [hdir, starts_snoc]
        exact hstarts
      rw [← hsize₁] at h0 hmod hfits
      obtain ⟨lg', heq, hgrow, hsize, hflags⟩ := hinv.start honly h0 hmod hfits
      rw [hmsgs] at heq
      exact ⟨_, _, mqlogWrite_eq h.inv hne (htry.trans heq), hgrow, .next l s tail _ hfull,
        hsize.trans hsize₁, hflags.trans hflags₁⟩
    · -- the last segment takes it
      obtain ⟨hlook, hroom⟩ : looksSealed s.ps = false ∧
          (image frame s.ps).length + 2 * headerSize + buf.1.length ≤ lg.size % 2 ^ 32 := by
        rw [LastFull, not_or, Bool.not_eq_true, Nat.not_lt] at hfull
        exact hfull
      obtain ⟨sgm, hsgm⟩ := h.inv.last
      have htail : s.tail = [] := h.unsealed s (by rw [List.getLast?_concat]; rfl)
      have hholds := hsgm.holds
      rw [htail] at hholds
      rw [← hsgm.size_eq] at hroom
      have hlast := h.inv.lastValue
      rw [List.getLast?_concat] at hlast
      have htry := mqlogTrywrite_room page { lg with locked := true } hlast hsgm.get
        (hholds.segmentWrite_fits hlook buf hroom)
      have hslot : SlotHolds { lg with segs := lg.segs.set s.addr (sgm.holding (s.ps ++ [buf]) []) }
          (messages l).length { s with ps := s.ps ++ [buf] } (sgm.holding (s.ps ++ [buf]) []) :=
        { get := Heap.get_set_self hsgm.get
          holds := htail.symm ▸ hholds.holding_snoc hroom
          base_eq := hsgm.base_eq
          size_eq := hsgm.size_eq
          flags_eq := hsgm.flags_eq
          synced_eq := hsgm.synced_eq
          synced_le := Nat.le_trans hsgm.synced_le (by
            rw [hholds.written_eq]
            show _ ≤ (image frame (s.ps ++ [buf])).length + 0
            rw [length_image_snoc]
            omega)
          synced_index_le := Nat.le_trans hsgm.synced_index_le (by
            rw [hholds.count]
            show _ ≤ (s.ps ++ [buf]).length
            rw [List.length_append]
            omega) }
      refine ⟨_, _, mqlogWrite_eq h.inv hne htry, ⟨?_, fun t ht => ?_, ?_⟩, .room l s, rfl, rfl⟩
      · exact h.inv.replace_last rfl (fun a ha => Heap.get_set_of_ne ha) rfl rfl rfl rfl rfl
          (List.append_ne_nil_of_right_ne_nil _ (List.cons_ne_nil _ _)) (hslot.congr rfl rfl rfl)
      · rw [List.getLast?_concat] at ht
        rw [← Option.some.inj ht]
        exact htail
      · have hstarts := h.only
        rw [starts_snoc] at hstarts
        rw [starts_snoc]
        exact hstarts

/-- **A message that fits into no segment blocks the log.** -/
theorem Growing.refuse (h : Growing lg l) (h0 : 0 < lg.size % 2 ^ 32)
    (hmod : lg.size % 2 ^ 32 % page.bytes = 0)
    (hbig : lg.size % 2 ^ 32 < buf.1.length + 2 * headerSize) :
    ∃ lg' l', mqlogWrite page lg buf = some (ELNOWCP, lg') ∧ Blocked lg' l' ∧ Seals l l' ∧
      lg'.size = lg.size ∧ lg'.flags = lg.flags := by
  have hne : buf.1.length ≠ 0 := by
    have h4096 := page.le_of_mod h0 hmod
    have h12 : headerSize = 12 := rfl
    omega
  have hnone := h.only.files_eq_none h.inv.next_not_mem
  rcases List.eq_nil_or_concat l with rfl | ⟨l, s, rfl⟩
  · obtain ⟨lg', heq, hblocked, hsize, hflags⟩ := h.inv.start_refused buf h0 hmod
      (.inl ⟨hnone, hbig⟩) (fun s sgm hs _ => by cases hs)
    have hfirst := mqlogTrywrite_first page { lg with locked := true } buf
      h.inv.lastValue
    exact ⟨_, _, mqlogWrite_eq h.inv hne (hfirst.trans heq), hblocked, .none, hsize, hflags⟩
  · rw [List.concat_eq_append] at *
    obtain ⟨lg₁, tail, htry, hinv, hdir, hsize₁, hflags₁, -, hmark⟩ :=
      h.last_refused page buf (.inr (by omega))
    have hmsgs : messages (l ++ [{ s with tail := tail }]) = messages (l ++ [s]) := by
      rw [messages_snoc, messages_snoc]
    rw [← hdir, ← hmsgs] at hnone
    rw [← hsize₁] at h0 hmod hbig
    obtain ⟨lg', heq, hblocked, hsize, hflags⟩ := hinv.start_refused buf h0 hmod
      (.inl ⟨hnone, hbig⟩) (fun t sgm ht hget => by
        rw [List.getLast?_concat] at ht
        rw [← Option.some.inj ht] at hget
        exact hmark sgm hget)
    rw [hmsgs] at heq
    exact ⟨_, _, mqlogWrite_eq h.inv hne (htry.trans heq), hblocked, .last l s tail,
      hsize.trans hsize₁, hflags.trans hflags₁⟩

/-- **A blocked log takes no message, and stays blocked.** -/
theorem Blocked.refuse (h : Blocked lg l) (h0 : 0 < lg.size % 2 ^ 32)
    (hmod : lg.size % 2 ^ 32 % page.bytes = 0) (hne : buf.1.length ≠ 0) :
    ∃ lg', mqlogWrite page lg buf = some (ELNOWCP, lg') ∧ Blocked lg' l ∧ lg'.size = lg.size ∧
      lg'.flags = lg.flags := by
  rcases List.eq_nil_or_concat l with rfl | ⟨l, s, rfl⟩
  · obtain ⟨lg', heq, hblocked, hsize, hflags⟩ := h.inv.start_refused buf h0 hmod
      (.inr h.files) h.sealed
    have hfirst := mqlogTrywrite_first page { lg with locked := true } buf
      h.inv.lastValue
    exact ⟨_, mqlogWrite_eq h.inv hne (hfirst.trans heq), hblocked, hsize, hflags⟩
  · rw [List.concat_eq_append] at *
    obtain ⟨sgm, hsgm⟩ := h.inv.last
    have hlast : (l ++ [s]).getLast? = some s := List.getLast?_concat
    have hmark := h.sealed s sgm hlast hsgm.get
    -- the write stores the segment as it is
    have hset : ∀ a, (lg.segs.set s.addr sgm).get a = lg.segs.get a := by
      intro a
      by_cases ha : a = s.addr
      · rw [ha, Heap.get_set_self hsgm.get, hsgm.get]
      · exact Heap.get_set_of_ne ha
    have hinv : LogInv { lg with segs := lg.segs.set s.addr sgm } (l ++ [s]) :=
      h.inv.congr _ rfl (fun t _ => hset t.addr) rfl rfl h.inv.unlocked rfl
    obtain ⟨lg', heq, hblocked, hsize, hflags⟩ := hinv.start_refused buf h0 hmod
      (.inr h.files) (fun t sgm' ht hget => h.sealed t sgm' ht ((hset t.addr).symm.trans hget))
    have hvalue := h.inv.lastValue
    rw [hlast] at hvalue
    have htry := mqlogTrywrite_next page { lg with locked := true } hvalue hsgm.get
      (segmentWrite_marked hmark buf)
    rw [hsgm.writeOffset, ← List.length_append, ← messages_snoc] at htry
    exact ⟨_, mqlogWrite_eq h.inv hne (htry.trans heq), hblocked, hsize, hflags⟩

end Steps

end Mqlog
