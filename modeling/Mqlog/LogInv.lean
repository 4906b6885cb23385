/-
  What a log holds.

  A log is a sequence of segments (`Slot`), each with some of the messages, and an index that maps
  the number of the first message of a segment to the segment.  The slots are records in the sense
  of `Lib.Records`: their image is the sequence of all messages, and the position of a record is the
  base offset of the segment.  So `mqlog_read` is two lookups of one kind, one for the segment in
  the log and one for the frame in the segment (`LogInv.reads`, `LogInv.unwritten`).

    1. `SlotHolds` connects a slot to the segment at its address: its base offset, size and flags,
       and its frames (`Holds`), with the synced positions behind.
    2. `LogInv lg l` says that the log consists of the slots `l`: each is held by an open segment,
       none is empty, the addresses are different, the index is the sorted list of their bases and
       addresses (`indexEntries`), the mutex is free, and no system call fails.
    3. The floor search finds the last slot whose base is not above the offset (`LogInv.floor`).  It
       is the slot which has the message, when there is one; the relative offset is then below the
       number of its messages.

  What a read returns is said by `LogReads` and `LogNotThere`, with the frame as a range of bytes in
  the buffer of a segment.  A log opened with `MQLOG_RDCMT` shows a message only when it is below
  the synced position of its segment (`Visible`).

  The second part is about changes.  Everything that writes or syncs touches the last segment or
  adds one, so there are two lemmas that keep the invariant: `LogInv.replace_last` for a change of
  the last segment, and `LogInv.add` for a new one; `LogInv.congr` is the frame rule below them.
-/
import Mqlog.Log
import Mqlog.MbptreeFloor
import Mqlog.SegmentSync

namespace Mqlog

open Lib Lib.Mem Lib.Records

/-! ## Slots -/

/-- A segment of a log: where it lives, its messages, what is behind them, and how far it is
    synced. -/
structure Slot where
  addr : Nat
  ps : List Buf
  tail : List UInt8
  synced : Nat

/-- All messages of a log. -/
def messages (l : List Slot) : List Buf := image Slot.ps l

/-- The base offset of the `k`-th segment. -/
def base (l : List Slot) (k : Nat) : Nat := start Slot.ps l k

/-- The entries of the index. -/
def indexEntries (l : List Slot) : List Data :=
  List.zipWith Data.mk (starts Slot.ps l) (l.map Slot.addr)

/-- A slot more appends its messages. -/
theorem messages_snoc (l : List Slot) (s : Slot) : messages (l ++ [s]) = messages l ++ s.ps :=
  image_snoc l s

/-- A new slot starts behind the messages of the slots before it. -/
theorem base_snoc (l : List Slot) (s : Slot) : base (l ++ [s]) l.length = (messages l).length := by
  rw [base, start_append (Nat.le_refl _), start_length, messages]

/-- The base of a slot depends on the slots before it alone. -/
theorem base_append {l l' : List Slot} {k : Nat} (hk : k ≤ l.length) :
    base (l ++ l') k = base l k :=
  start_append hk

@[simp] theorem length_indexEntries (l : List Slot) : (indexEntries l).length = l.length := by
  rw [indexEntries, List.length_zipWith, length_starts, List.length_map, Nat.min_self]

/-- Entry `k` of the index holds the base of slot `k` and the address of its segment. -/
theorem getElem?_indexEntries {l : List Slot} {k : Nat} (hk : k < l.length) :
    (indexEntries l)[k]? = some ⟨base l k, l[k].addr⟩ := by
  have hk' : k < (starts Slot.ps l).length := by rwa [length_starts]
  rw [indexEntries, List.getElem?_zipWith, List.getElem?_eq_getElem hk', getElem_starts,
    List.getElem?_map, List.getElem?_eq_getElem hk]
  rfl

theorem indexEntries_snoc (l : List Slot) (s : Slot) :
    indexEntries (l ++ [s]) = indexEntries l ++ [⟨(messages l).length, s.addr⟩] := by
  rw [indexEntries, starts_snoc, List.map_append, List.zipWith_append (by simp)]
  rfl

/-- Appending a message to a segment leaves the index as it is. -/
theorem indexEntries_snoc_congr (l : List Slot) {s s' : Slot} (h : s'.addr = s.addr) :
    indexEntries (l ++ [s']) = indexEntries (l ++ [s]) := by
  rw [indexEntries_snoc, indexEntries_snoc, h]

/-! ## The invariant -/

/-- The slot `s` of a log is stored in the segment `sgm`. -/
structure SlotHolds (lg : MqLog) (b : Nat) (s : Slot) (sgm : Segment) : Prop where
  get : lg.segs.get s.addr = some sgm
  holds : Holds sgm s.ps s.tail
  base_eq : sgm.baseOffset = b
  size_eq : sgm.size = lg.size % 2 ^ 32
  flags_eq : sgm.flags &&& sgmRdcmt = lg.flags &&& mqlogRdcmt
  synced_eq : sgm.sOffset.data = s.synced
  synced_le : sgm.sOffset.data ≤ sgm.wOffset.data
  synced_index_le : sgm.sOffset.index ≤ sgm.wOffset.index

/-- The log `lg`, between two calls, consists of the segments `l`, none of which is empty. -/
structure LogInv (lg : MqLog) (l : List Slot) : Prop where
  tree : TreeHolds branchFactor lg.index (indexEntries l)
  slots : ∀ k, (hk : k < l.length) → ∃ sgm, SlotHolds lg (base l k) l[k] sgm
  nodup : (l.map Slot.addr).Nodup
  nonempty : ∀ s ∈ l, s.ps ≠ []
  unlocked : lg.locked = false
  calls : lg.calls = LogCalls.ok

theorem three_le_branchFactor : 3 ≤ branchFactor := by decide

/-- What a slot says of its segment survives a change that keeps the segment, the size and the
    flags. -/
theorem SlotHolds.congr {lg lg' : MqLog} {b : Nat} {s : Slot} {sgm : Segment}
    (h : SlotHolds lg b s sgm) (hget : lg'.segs.get s.addr = lg.segs.get s.addr)
    (hsize : lg'.size = lg.size) (hflags : lg'.flags = lg.flags) : SlotHolds lg' b s sgm where
  get := hget.trans h.get
  holds := h.holds
  base_eq := h.base_eq
  size_eq := by rw [h.size_eq, hsize]
  flags_eq := by rw [h.flags_eq, hflags]
  synced_eq := h.synced_eq
  synced_le := h.synced_le
  synced_index_le := h.synced_index_le

/-- The message is committed, or the log shows all messages. -/
def Visible (lg : MqLog) (l : List Slot) (k : Nat) : Prop :=
  lg.flags &&& mqlogRdcmt = mqlogRdcmt → ∀ j, (hj : j < l.length) → ∀ i, i < l[j].ps.length →
    base l j + i = k → start frame l[j].ps i < l[j].synced

/-- `mqlog_read` returns the length of the message and a frame whose buffer is its bytes, and leaves
    the log as it is. -/
def LogReads (lg : MqLog) (offset : Nat) (buf : Buf) : Prop :=
  ∃ addr sgm hdr pos, mqlogRead lg offset =
      some ((buf.1.length : Int), some (addr, ⟨some hdr, some pos⟩), lg) ∧
    lg.segs.get addr = some sgm ∧ load sgm.buffer pos buf.1.length = buf.1

/-- `mqlog_read` returns `ELNORD` and leaves the log as it is. -/
def LogNotThere (lg : MqLog) (offset : Nat) : Prop :=
  ∃ fr, mqlogRead lg offset = some (ELNORD, fr, lg)

section Read

variable {lg : MqLog} {offset : Nat} {it : LeafIterator}

/-- A read goes on in the segment under the iterator. -/
theorem mqlogRead_found (hlocked : lg.locked = false) {addr : Nat} {sgm : Segment}
    (hfloor : mbptreeLeafFloor lg.index offset = some (0, some it, lg.index))
    (hvalid : mbptreeLeafIteratorValid lg.index it = some true)
    (hvalue : mbptreeLeafIteratorValue lg.index it = some addr)
    (hget : lg.segs.get addr = some sgm) :
    mqlogRead lg offset = some ((segmentRead sgm (offset - sgm.baseOffset)).1,
      some (addr, (segmentRead sgm (offset - sgm.baseOffset)).2), lg) := by
  rw [mqlogRead, mqlogTryread, if_neg (by rw [hlocked]; exact Bool.false_ne_true), hfloor]
  simp only [Option.bind_eq_bind, Option.bind_some, ne_eq, not_true_eq_false, if_false, hvalid,
    Bool.true_eq_false, hvalue, hget, segmentBaseOffset]
  rfl

/-- A read of a log whose base offsets are all above the offset. -/
theorem mqlogRead_none (hlocked : lg.locked = false)
    (hfloor : mbptreeLeafFloor lg.index offset = some (0, some it, lg.index))
    (hvalid : mbptreeLeafIteratorValid lg.index it = some false) :
    mqlogRead lg offset = some (ELNORD, none, lg) := by
  rw [mqlogRead, mqlogTryread, if_neg (by rw [hlocked]; exact Bool.false_ne_true), hfloor]
  simp only [Option.bind_eq_bind, Option.bind_some, ne_eq, not_true_eq_false, if_false, hvalid,
    if_true]
  rfl

end Read

namespace LogInv

variable {lg : MqLog} {l : List Slot}

/-- **The floor search finds the segment**: the last one whose base offset is not above `offset`. -/
theorem floor (h : LogInv lg l) (offset : Nat) :
    ∃ it, mbptreeLeafFloor lg.index offset = some (0, some it, lg.index) ∧
      ((l = [] ∧ mbptreeLeafIteratorValid lg.index it = some false) ∨
        ∃ j, ∃ hj : j < l.length, mbptreeLeafIteratorValid lg.index it = some true ∧
          mbptreeLeafIteratorValue lg.index it = some l[j].addr ∧ base l j ≤ offset ∧
          (j + 1 < l.length → offset < base l (j + 1))) := by
  obtain ⟨it, heq, hcases⟩ := mbptreeLeafFloor_spec three_le_branchFactor h.tree offset
  refine ⟨it, heq, ?_⟩
  rcases hcases with ⟨habove, rfl⟩ | ⟨pre, d, post, hes, hle, hpost, hcursor⟩
  · left
    refine ⟨?_, rfl⟩
    -- the first base offset is zero
    cases l with
    | nil => rfl
    | cons s l =>
      have hfirst := getElem?_indexEntries (l := s :: l) (k := 0) (Nat.succ_pos _)
      have hlt := habove _ (List.mem_of_getElem? hfirst)
      rw [base, start_zero] at hlt
      exact absurd hlt (Nat.not_lt_zero _)
  · right
    have hlen := congrArg List.length hes
    rw [length_indexEntries, List.length_append, List.length_cons] at hlen
    have hj : pre.length < l.length := by omega
    have hd : (indexEntries l)[pre.length]? = some d := by
      rw [hes, List.getElem?_append_right (Nat.le_refl _), Nat.sub_self]
      rfl
    rw [getElem?_indexEntries hj] at hd
    obtain rfl := Option.some.inj hd
    refine ⟨pre.length, hj, hcursor.valid_cons, hcursor.key_value.2, hle, fun hnext => ?_⟩
    have hsucc := getElem?_indexEntries hnext
    rw [hes, List.getElem?_append_right (by omega), Nat.add_sub_cancel_left] at hsucc
    exact hpost _ (List.mem_of_getElem? hsucc)

/-- A read is a read of the segment found. -/
theorem read_eq (h : LogInv lg l) {offset : Nat} {it : LeafIterator} {addr : Nat} {sgm : Segment}
    (hfloor : mbptreeLeafFloor lg.index offset = some (0, some it, lg.index))
    (hvalid : mbptreeLeafIteratorValid lg.index it = some true)
    (hvalue : mbptreeLeafIteratorValue lg.index it = some addr)
    (hget : lg.segs.get addr = some sgm) :
    mqlogRead lg offset = some ((segmentRead sgm (offset - sgm.baseOffset)).1,
      some (addr, (segmentRead sgm (offset - sgm.baseOffset)).2), lg) :=
  mqlogRead_found h.unlocked hfloor hvalid hvalue hget

/-- **Every message can be read.** -/
theorem reads (h : LogInv lg l) {k : Nat} {buf : Buf} (hbuf : (messages l)[k]? = some buf)
    (hvis : Visible lg l k) : LogReads lg k buf := by
  have hk : k < (messages l).length := (List.getElem?_eq_some_iff.mp hbuf).1
  obtain ⟨it, hfloor, ⟨rfl, -⟩ | ⟨j, hj, hvalid, hvalue, hle, hnext⟩⟩ := h.floor k
  · exact absurd hk (Nat.not_lt_zero k)
  · have hsucc := start_succ (f := Slot.ps) hj
    have hlt : k < base l j + l[j].ps.length := by
      rw [base, ← hsucc]
      rcases Nat.lt_or_ge (j + 1) l.length with hmore | hlast
      · exact hnext hmore
      · rw [show j + 1 = l.length by omega, start_length]
        exact hk
    obtain ⟨i, rfl⟩ : ∃ i, k = base l j + i := ⟨k - base l j, by omega⟩
    have hi : i < l[j].ps.length := by omega
    obtain ⟨sgm, hsgm⟩ := h.slots j hj
    have hmsg : l[j].ps[i] = buf := by
      have hget := getElem?_image (f := Slot.ps) hj hi
      rw [messages, base, hget] at hbuf
      exact Option.some.inj hbuf
    have hbound : start frame l[j].ps i < readBoundary sgm := by
      rw [readBoundary, hsgm.flags_eq]
      split
      · rename_i hflags
        rw [hsgm.synced_eq]
        exact hvis hflags j hj i hi rfl
      · exact hsgm.holds.start_lt_written hi
    obtain ⟨hdr, pos, hread, hload⟩ := hsgm.holds.reads hi hbound
    rw [hmsg] at hread hload
    refine ⟨_, sgm, hdr, pos, ?_, hsgm.get, hload⟩
    rw [h.read_eq hfloor hvalid hvalue hsgm.get, hsgm.base_eq, Nat.add_sub_cancel_left, hread]

/-- **Nothing else can be read.** -/
theorem unwritten (h : LogInv lg l) {k : Nat} (hk : (messages l).length ≤ k) :
    LogNotThere lg k := by
  obtain ⟨it, hfloor, ⟨rfl, hvalid⟩ | ⟨j, hj, hvalid, hvalue, hle, hnext⟩⟩ := h.floor k
  · exact ⟨none, mqlogRead_none h.unlocked hfloor hvalid⟩
  · obtain ⟨sgm, hsgm⟩ := h.slots j hj
    have hsucc := start_succ (f := Slot.ps) hj
    -- the segment found is the last one
    have hlast : j + 1 = l.length := by
      rcases Nat.lt_or_ge (j + 1) l.length with hmore | hlast
      · have hin := start_mono (f := Slot.ps) (l := l) (Nat.le_of_lt hmore)
        have hlt := hnext hmore
        rw [start_length] at hin
        rw [base] at hlt
        rw [messages] at hk
        omega
      · omega
    rw [hlast, start_length] at hsucc
    have hcount : sgm.wOffset.index ≤ k - sgm.baseOffset := by
      rw [hsgm.holds.count, hsgm.base_eq, base]
      rw [messages] at hk
      omega
    have hread := h.read_eq hfloor hvalid hvalue hsgm.get
    rw [segmentRead_unwritten hcount] at hread
    exact ⟨_, hread⟩

/-! ## The last segment -/

/-- The segments of a log with one more segment. -/
theorem slots_snoc {lg : MqLog} {l : List Slot} {s : Slot} :
    (∀ k, (hk : k < (l ++ [s]).length) →
      ∃ sgm, SlotHolds lg (base (l ++ [s]) k) (l ++ [s])[k] sgm) ↔
    (∀ k, (hk : k < l.length) → ∃ sgm, SlotHolds lg (base l k) l[k] sgm) ∧
      ∃ sgm, SlotHolds lg (messages l).length s sgm := by
  have hlen : (l ++ [s]).length = l.length + 1 := List.length_append
  constructor
  · intro h
    refine ⟨fun k hk => ?_, ?_⟩
    · obtain ⟨sgm, hsgm⟩ := h k (by omega)
      rw [base_append (Nat.le_of_lt hk), List.getElem_append_left hk] at hsgm
      exact ⟨sgm, hsgm⟩
    · obtain ⟨sgm, hsgm⟩ := h l.length (by omega)
      rw [base_snoc, List.getElem_concat_length rfl] at hsgm
      exact ⟨sgm, hsgm⟩
  · rintro ⟨hinit, hlast⟩ k hk
    rcases Nat.lt_or_ge k l.length with hlt | hge
    · rw [base_append (Nat.le_of_lt hlt), List.getElem_append_left hlt]
      exact hinit k hlt
    · have heq : k = l.length := by omega
      subst heq
      rw [base_snoc, List.getElem_concat_length rfl]
      exact hlast

theorem last {s : Slot} (h : LogInv lg (l ++ [s])) :
    ∃ sgm, SlotHolds lg (messages l).length s sgm :=
  (slots_snoc.mp h.slots).2

/-- `mbptree_last_value` is the address of the last slot. -/
theorem lastValue (h : LogInv lg l) :
    mbptreeLastValue lg.index = some (l.getLast?.map Slot.addr) := by
  rw [mbptreeLastValue_spec h.tree]
  rcases List.eq_nil_or_concat l with rfl | ⟨l, s, rfl⟩
  · rfl
  · rw [List.concat_eq_append, indexEntries_snoc, List.getLast?_concat, List.getLast?_concat]
    rfl

/-- Segments live below the next address. -/
theorem addr_lt (h : LogInv lg l) : ∀ s ∈ l, s.addr < lg.segs.next := by
  intro s hs
  obtain ⟨k, hk, rfl⟩ := List.getElem_of_mem hs
  obtain ⟨sgm, hsgm⟩ := h.slots k hk
  exact Heap.lt_next hsgm.get

/-- Base offsets lie below the number of messages. -/
theorem key_lt (h : LogInv lg l) : ∀ e ∈ indexEntries l, e.key < (messages l).length := by
  intro e he
  obtain ⟨k, he⟩ := List.getElem?_of_mem he
  have hk : k < l.length := by
    have hlt := (List.getElem?_eq_some_iff.mp he).1
    rwa [length_indexEntries] at hlt
  rw [getElem?_indexEntries hk] at he
  obtain rfl := Option.some.inj he
  have hne := List.length_pos_iff.mpr (h.nonempty _ (List.getElem_mem hk))
  have hend := start_add_le_image (f := Slot.ps) hk
  show start Slot.ps l k < (image Slot.ps l).length
  omega

/-- What is not on the list of segments does not matter. -/
theorem congr (lg' : MqLog) (h : LogInv lg l) (hindex : lg'.index = lg.index)
    (hsegs : ∀ s ∈ l, lg'.segs.get s.addr = lg.segs.get s.addr) (hsize : lg'.size = lg.size)
    (hflags : lg'.flags = lg.flags) (hlocked : lg'.locked = false)
    (hcalls : lg'.calls = lg.calls) : LogInv lg' l where
  tree := by rw [hindex]; exact h.tree
  slots k hk := (h.slots k hk).imp fun _ hsgm =>
    hsgm.congr (hsegs _ (List.getElem_mem hk)) hsize hflags
  nodup := h.nodup
  nonempty := h.nonempty
  unlocked := hlocked
  calls := hcalls.trans h.calls

/-- A log whose last segment has changed. -/
theorem replace_last {lg' : MqLog} {s s' : Slot} {sgm : Segment} (h : LogInv lg (l ++ [s]))
    (hindex : lg'.index = lg.index) (hsegs : ∀ a, a ≠ s.addr → lg'.segs.get a = lg.segs.get a)
    (hsize : lg'.size = lg.size) (hflags : lg'.flags = lg.flags) (hlocked : lg'.locked = false)
    (hcalls : lg'.calls = lg.calls) (haddr : s'.addr = s.addr) (hps : s'.ps ≠ [])
    (hslot : SlotHolds lg' (messages l).length s' sgm) : LogInv lg' (l ++ [s']) where
  tree := by
    rw [hindex, indexEntries_snoc_congr l haddr]
    exact h.tree
  slots := by
    have hnodup := h.nodup
    rw [List.map_append, List.map_singleton, List.nodup_append] at hnodup
    refine slots_snoc.mpr ⟨fun k hk => ?_, sgm, hslot⟩
    obtain ⟨sgm', hsgm'⟩ := (slots_snoc.mp h.slots).1 k hk
    have hne : l[k].addr ≠ s.addr :=
      hnodup.2.2 _ (List.mem_map_of_mem (List.getElem_mem hk)) _ (List.mem_singleton_self _)
    exact ⟨sgm', hsgm'.congr (hsegs _ hne) hsize hflags⟩
  nodup := by
    have hnodup := h.nodup
    rw [List.map_append, List.map_singleton] at hnodup ⊢
    rwa [haddr]
  nonempty t ht := by
    rcases List.mem_append.mp ht with ht | ht
    · exact h.nonempty t (List.mem_append_left _ ht)
    · rw [List.mem_singleton.mp ht]
      exact hps
  unlocked := hlocked
  calls := hcalls.trans h.calls

/-- A log with a new segment. -/
theorem add (lg' : MqLog) {s : Slot} {sgm : Segment} (h : LogInv lg l)
    (htree : TreeHolds branchFactor lg'.index
      (indexEntries l ++ [⟨(messages l).length, s.addr⟩]))
    (hsegs : ∀ a, a < lg.segs.next → lg'.segs.get a = lg.segs.get a) (hsize : lg'.size = lg.size)
    (hflags : lg'.flags = lg.flags) (hlocked : lg'.locked = false)
    (hcalls : lg'.calls = lg.calls) (haddr : lg.segs.next ≤ s.addr) (hps : s.ps ≠ [])
    (hslot : SlotHolds lg' (messages l).length s sgm) : LogInv lg' (l ++ [s]) where
  tree := by
    rw [indexEntries_snoc]
    exact htree
  slots := slots_snoc.mpr ⟨fun k hk => (h.slots k hk).imp fun _ hsgm' =>
    hsgm'.congr (hsegs _ (h.addr_lt _ (List.getElem_mem hk))) hsize hflags, sgm, hslot⟩
  nodup := by
    rw [List.map_append, List.map_singleton, List.nodup_append]
    refine ⟨h.nodup, List.nodup_singleton _, ?_⟩
    rintro a ha b hb rfl
    obtain ⟨t, ht, rfl⟩ := List.mem_map.mp ha
    rw [List.mem_singleton] at hb
    have hlt := h.addr_lt t ht
    omega
  nonempty t ht := by
    rcases List.mem_append.mp ht with ht | ht
    · exact h.nonempty t ht
    · rw [List.mem_singleton.mp ht]
      exact hps
  unlocked := hlocked
  calls := hcalls.trans h.calls

end LogInv

end Mqlog
