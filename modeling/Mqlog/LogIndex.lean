/-
  The segments that the index of a log refers to.

  `mqlog_trywrite` closes the new segment whenever `mbptree_append` fails.  After `ELIDXNM`,
  `ELALLC` and `ELIDXLK` the index is as it was, so nothing refers to that segment.  After the panic
  `ELIDXPC` the new leaf is linked and is the last one, and the index refers to a closed segment.

  `IndexOpen` is what holds between calls in a run without a panic: the index is sound and every
  value in its leaves is the address of an open segment.  It is kept by

    * a write into the last segment, which changes what is at an address (`IndexOpen.set`);
    * a new segment, which is at an address that no leaf has (`IndexOpen.fresh`), and is in the
      index or closed when the write returns (`IndexOpen.indexSegment`, `IndexOpen.startSegment`);
    * searches, reads and syncs, which change no leaf (`IndexOpen.leafFloor`).

  `mqlog_close` is not among the calls, as nothing can be called after it.

  The condition `KeepsIndex` is one on the state before a write: the write would go on to a new
  segment (`RollsOver`) whose append panics.  An append panics only when the last leaf is full and
  has a parent, the new leaf could be allocated, and one of the allocations for the nodes above
  fails after that (`Panics`).  `hasRoom` is a stronger condition that can be computed.

  Two runs show the difference.  In `segments_open_of_rollback` the second leaf cannot be allocated
  when the first one is still the root: the append is rolled back, the write returns `ELIDXOP`, and
  the next one goes through.  In `segment_closed_in_panic` the eighth leaf is allocated and the
  other half of its parent is not: the segment is closed, and the index still refers to it.
-/
import Mqlog.LogMutex
import Mqlog.LogLaw
import Mqlog.MbptreeAtomic

namespace Mqlog

open Lib Lib.Mem Lib.Records

/-- Every segment address in a leaf of the index is that of an open segment, and so is the one that
    `mbptree_last_value` returns. -/
structure SegmentsOpen (lg : MqLog) : Prop where
  stored : ∀ addr, StoredIn lg.index.heap addr → ∃ sgm, lg.segs.get addr = some sgm
  last : ∀ addr, mbptreeLastValue lg.index = some (some addr) → ∃ sgm, lg.segs.get addr = some sgm

/-- The write goes on to a new segment, which starts at `key` and takes the payload. -/
def RollsOver (page : PageSize) (lg : MqLog) (buf : Buf) (key : Nat) : Prop :=
  lg.locked = false ∧ buf.1.length ≠ 0 ∧ ∃ addr sgm, mbptreeLastValue lg.index = some (some addr) ∧
    lg.segs.get addr = some sgm ∧ (segmentWrite sgm buf).1 = ELEOS ∧
    key = segmentWriteOffset (segmentWrite sgm buf).2 ∧
    ∃ rc new files, segmentOpen page (lg.calls.opens.headD OpenCalls.ok) (lg.dir.files key) key
        (lg.size % 2 ^ 32) (createFlags lg) = (rc, some new, files) ∧
      (segmentWrite new buf).1 ≠ ELEOS

/-- The call does not make the index panic. -/
def KeepsIndex (page : PageSize) (lg : MqLog) : MqlogCall → Prop
  | .write buf => ∀ key, RollsOver page lg buf key → ¬ Panics lg.index key
  | _ => True

/-! ## The invariant -/

/-- The index is sound, its lock is free, and its leaves hold addresses of open segments. -/
structure IndexOpen (lg : MqLog) : Prop where
  free : lg.index.lock = lockFree
  tree : ∃ lev, SoundTree branchFactor lg.index lev
  opened : ∀ addr, StoredIn lg.index.heap addr → ∃ sgm, lg.segs.get addr = some sgm

/-- The last value is stored in the last leaf. -/
theorem storedIn_lastValue {b addr : Nat} {t : Mbptree} {lev : Nat → Option Nat}
    (ht : SoundTree b t lev) (h : mbptreeLastValue t = some (some addr)) :
    StoredIn t.heap addr := by
  obtain ⟨n, hn, hleaf, -⟩ := ht.lastNode
  rw [mbptreeLastValue, Mbptree.node, hn] at h
  simp only [Option.bind_eq_bind, Option.bind_some] at h
  split at h
  · cases h
  · rename_i hsize
    simp only [Option.bind_eq_some_iff, Option.pure_def] at h
    obtain ⟨d, hd, h⟩ := h
    obtain rfl := Option.some.inj (Option.some.inj h)
    exact ⟨_, n, n.size - 1, hn, hleaf, by omega, by rw [Node.val?, hd]; rfl⟩

namespace IndexOpen

variable {page : PageSize} {lg lg' : MqLog} {addr : Nat} {rc : Int} {buf : Buf}

theorem segmentsOpen (h : IndexOpen lg) : SegmentsOpen lg := by
  obtain ⟨lev, ht⟩ := h.tree
  exact ⟨h.opened, fun addr haddr => h.opened addr (storedIn_lastValue ht haddr)⟩

/-- No stored address is handed out again. -/
theorem fresh (h : IndexOpen lg) : ¬ StoredIn lg.index.heap lg.segs.next := by
  intro hstored
  obtain ⟨sgm, hsgm⟩ := h.opened _ hstored
  exact absurd (Heap.lt_next hsgm) (Nat.lt_irrefl _)

/-- Other segments may come and go. -/
theorem congr (h : IndexOpen lg) (hindex : lg'.index = lg.index)
    (hsegs : ∀ a sgm, StoredIn lg.index.heap a → lg.segs.get a = some sgm →
      ∃ sgm', lg'.segs.get a = some sgm') : IndexOpen lg' where
  free := by rw [hindex]; exact h.free
  tree := by rw [hindex]; exact h.tree
  opened a ha := by
    rw [hindex] at ha
    obtain ⟨sgm, hsgm⟩ := h.opened a ha
    exact hsegs a sgm ha hsgm

/-- The segment at an address may change. -/
theorem set (h : IndexOpen lg) {sgm sgm' : Segment} (hget : lg.segs.get addr = some sgm) :
    IndexOpen { lg with segs := lg.segs.set addr sgm' } := by
  refine h.congr rfl fun a sgm₁ _ hget₁ => ?_
  by_cases ha : a = addr
  · rw [ha]
    exact ⟨_, Heap.get_set_self hget⟩
  · exact ⟨sgm₁, (Heap.get_set_of_ne ha).trans hget₁⟩

theorem closeSegment (h : IndexOpen lg) (hnot : ¬ StoredIn lg.index.heap addr)
    (hclose : closeSegment page lg addr = some (rc, lg')) : IndexOpen lg' := by
  obtain ⟨⟨hindex, -⟩, hsegs⟩ := closeSegment_cases hclose
  refine h.congr hindex fun a sgm ha hget => ⟨sgm, ?_⟩
  rw [hsegs a fun heq => hnot (heq ▸ ha)]
  exact hget

/-- **A new segment and the index**: unless the append panics, the index refers to the new segment
    and keeps it, or it is as before and the segment is closed. -/
theorem indexSegment {written : Int} {sgm : Segment} (h : IndexOpen lg)
    (hnot : ¬ StoredIn lg.index.heap addr) (hsgm : lg.segs.get addr = some sgm)
    (hpanic : ¬ Panics lg.index sgm.baseOffset)
    (hindex : indexSegment page lg addr written = some (rc, lg')) : IndexOpen lg' := by
  obtain ⟨lev, ht⟩ := h.tree
  obtain ⟨sgm', code, index, hget, happend, hcases⟩ := indexSegment_cases hindex
  obtain rfl := Option.some.inj (hsgm.symm.trans hget)
  rcases mbptreeAppend_outcome three_le_branchFactor ht h.free sgm.baseOffset addr with
    ⟨-, hnone⟩ | ⟨-, code', index', heq, houtcome⟩
  · rw [hnone] at happend
    cases happend
  rw [heq] at happend
  cases happend
  rcases houtcome with ⟨rfl | ⟨-, hpanics⟩, htree, hlock, hstored⟩ | ⟨-, hsame, hnext⟩
  · rcases hcases with ⟨-, -, rfl⟩ | ⟨hne, -⟩
    · refine ⟨hlock.trans h.free, htree, fun a ha => ?_⟩
      rcases hstored a ha with ha | rfl
      · exact h.opened a ha
      · exact ⟨sgm, hsgm⟩
    · exact absurd rfl hne
  · exact absurd hpanics hpanic
  · have hstored : ∀ a, StoredIn index.heap a → StoredIn lg.index.heap a := by
      rintro a ⟨x, n, i, hn, hrest⟩
      exact ⟨x, n, i, (hsame.get x).symm.trans hn, hrest⟩
    have hopen : IndexOpen { lg with index := index } :=
      ⟨hsame.lock.trans h.free, ⟨lev, hsame.soundTree hnext ht⟩, fun a ha =>
        h.opened a (hstored a ha)⟩
    rcases hcases with ⟨-, -, rfl⟩ | ⟨-, -, rc', hclose⟩
    · exact hopen
    · exact hopen.closeSegment (fun ha => hnot (hstored addr ha)) hclose

/-- **The second half of a write**: a new segment that has been written to is indexed or closed. -/
theorem startSegment {b : Nat} (h : IndexOpen lg)
    (hkeeps : ∀ code new files, segmentOpen page (lg.calls.opens.headD OpenCalls.ok)
      (lg.dir.files b) b
        (lg.size % 2 ^ 32) (createFlags lg) = (code, some new, files) →
      (segmentWrite new buf).1 ≠ ELEOS → ¬ Panics lg.index b)
    (hstart : Mqlog.startSegment page lg b buf = some (rc, lg')) : IndexOpen lg' := by
  rcases startSegment_cases hstart with hcreate |
    ⟨code, addr, lg₁, written, lg₂, hcreate, hwrite, hcases⟩
  · rw [createSegment_flags] at hcreate
    obtain ⟨hsame, hsegs, -⟩ := openSegment_none hcreate
    exact h.congr hsame.index_eq fun _ sgm _ hget => ⟨sgm, by rw [hsegs]; exact hget⟩
  · rw [createSegment_flags] at hcreate
    obtain ⟨hsame, rfl, new, files, hnew, hsegs⟩ := openSegment_some hcreate
    obtain ⟨sgm, hget, hwritten, rfl⟩ := writeSegment_cases hwrite
    have hopen₁ : IndexOpen lg₁ := h.congr hsame.index_eq fun _ sgm _ hget =>
      ⟨sgm, by rw [hsegs]; exact Heap.get_alloc_of_get hget⟩
    have hnot : ¬ StoredIn lg₁.index.heap lg.segs.next := by
      rw [hsame.index_eq]
      exact h.fresh
    have hopen₂ :
      IndexOpen { lg₁ with segs := lg₁.segs.set lg.segs.next (segmentWrite sgm buf).2 } :=
      hopen₁.set hget
    rcases hcases with ⟨-, -, rc', hclose⟩ | ⟨hne, hindex⟩
    · exact hopen₂.closeSegment hnot hclose
    · refine hopen₂.indexSegment hnot (Heap.get_set_self hget) ?_ hindex
      -- it is the segment that was opened
      rw [hsegs, Heap.get_alloc_self] at hget
      obtain rfl := Option.some.inj hget
      rw [segmentWrite_baseOffset, segmentOpen_baseOffset hnew]
      show ¬ Panics lg₁.index b
      rw [hsame.index_eq]
      exact hkeeps _ _ _ hnew (hwritten ▸ hne)

/-- The index of a log without segments has an empty last leaf, so that an append has room. -/
theorem not_panics_of_no_value (h : IndexOpen lg) (hvalue : mbptreeLastValue lg.index = some none)
    (key : Nat) : ¬ Panics lg.index key := by
  obtain ⟨lev, ht⟩ := h.tree
  obtain ⟨n, hn, -, hlen, -⟩ := ht.lastNode
  rintro ⟨⟨m, hm, -, hfull, -⟩, -⟩
  have hsize : n.size = 0 := by
    rw [mbptreeLastValue, Mbptree.node, hn] at hvalue
    simp only [Option.bind_eq_bind, Option.bind_some] at hvalue
    split at hvalue
    · assumption
    · simp only [Option.bind_eq_some_iff, Option.pure_def] at hvalue
      obtain ⟨d, -, hvalue⟩ := hvalue
      cases hvalue
  rw [mbptreeNodeFull_eq hn (by rw [ht.factor, hsize]; decide), ht.factor, hsize] at hfull
  exact absurd hfull (by decide)

/-- A write to the log. -/
theorem mqlogTrywrite (h : IndexOpen lg) (hunlocked : lg.locked = false)
    (hempty : buf.1.length ≠ 0) (hkeeps : KeepsIndex page lg (.write buf))
    (htry : Mqlog.mqlogTrywrite page { lg with locked := true } buf = some (rc, lg')) :
    IndexOpen lg' := by
  have hopen : IndexOpen { lg with locked := true } := h.congr rfl fun _ sgm _ hget => ⟨sgm, hget⟩
  rcases mqlogTrywrite_cases htry with ⟨hvalue, hstart⟩ |
    ⟨addr, sgm, hvalue, hsgm, ⟨-, -, rfl⟩ | ⟨heos, hstart⟩⟩
  · exact hopen.startSegment (fun _ _ _ _ _ => h.not_panics_of_no_value hvalue 0) hstart
  · exact hopen.set hsgm
  · have hwritten : IndexOpen { lg with locked := true
                                        segs := lg.segs.set addr (segmentWrite sgm buf).2 } :=
      hopen.set hsgm
    refine hwritten.startSegment (fun code new files hnew hne => ?_) hstart
    exact hkeeps _ ⟨hunlocked, hempty, addr, sgm, hvalue, hsgm, heos, rfl, code, new, files,
      hnew, hne⟩

/-- A search changes no leaf. -/
theorem leafFloor {key : Nat} {it : Option LeafIterator} {index : Mbptree} (h : IndexOpen lg)
    (hfloor : mbptreeLeafFloor lg.index key = some (rc, it, index)) (locked : Bool) :
    IndexOpen { lg with index := index, locked := locked } := by
  have hindex : index.lock = lockFree ∧ (∃ lev, SoundTree branchFactor index lev) ∧
      index.heap = lg.index.heap := by
    obtain ⟨lev, ht⟩ := h.tree
    have hfree := h.free
    obtain ⟨-, -, rfl⟩ | ⟨-, -, -, rfl⟩ | ⟨-, -, -, rfl⟩ := mbptreeLeafFloor_cases hfloor
    · exact ⟨hfree, ⟨lev, ht.factor, ht.sound, ht.last⟩, rfl⟩
    · exact ⟨hfree, ⟨lev, ht.factor, ht.sound, ht.last⟩, rfl⟩
    · refine ⟨?_, ⟨lev, ht.factor, ht.sound, ht.last⟩, rfl⟩
      show floorRelease (floorNew lg.index.lock) = lockFree
      rw [hfree, floorRelease_floorNew_free]
  obtain ⟨hfree, htree, hheap⟩ := hindex
  refine ⟨hfree, htree, fun a ha => h.opened a ?_⟩
  rw [← hheap]
  exact ha

theorem mqlogSync (h : IndexOpen lg) (hsync : Mqlog.mqlogSync page lg = some (rc, lg')) :
    IndexOpen lg' := by
  rcases mqlogSync_cases hsync with rfl | ⟨addr, sgm, msyncs, hget, hsame, hsegs⟩
  · exact h
  · have hset : IndexOpen { lg with segs := lg.segs.set addr (segmentSync page msyncs sgm).2 } :=
      h.set hget
    refine hset.congr hsame.index_eq fun _ sgm' _ hget' => ⟨sgm', ?_⟩
    rw [hsegs]
    exact hget'

end IndexOpen

/-! ## Runs -/

/-- The step lemma: a call that does not make the index panic keeps its segments open. -/
theorem mqlogStep_indexOpen {page : PageSize} {lg lg' : MqLog} {call : MqlogCall} (h : IndexOpen lg)
    (hkeeps : KeepsIndex page lg call) (hstep : mqlogStep page lg call = some lg') :
    IndexOpen lg' := by
  rcases mqlogStep_cases hstep with rfl | ⟨buf, rc, lg₁, rfl, hempty, hunlocked, htry, rfl⟩ |
    ⟨offset, code, it, index, locked, hfloor, rfl⟩ | ⟨rc, hsync⟩
  · exact h
  · have hopen := h.mqlogTrywrite hunlocked hempty hkeeps htry
    exact hopen.congr rfl fun _ sgm _ hget => ⟨sgm, hget⟩
  · exact h.leafFloor hfloor locked
  · exact h.mqlogSync hsync

/-- Opening an empty directory. -/
theorem mqlogOpen_indexOpen {page : PageSize} {calls : LogCalls} {dir' : Dir}
    {names : List (List Char)} {size flags : Nat} {rc : Int} {lg : MqLog}
    (hnames : Lists names Dir.empty) (h : mqlogOpen page calls Dir.empty names size flags =
      some (rc, some lg, dir')) : IndexOpen lg := by
  rw [mqlogOpen] at h
  split at h
  · cases h
  split at h
  · cases h
  split at h
  · cases h
  split at h
  · cases h
  rename_i index hinit
  simp only [Option.bind_eq_bind, Option.pure_def,
    loadSegments_skip (not_isLog_of_lists_empty hnames)] at h
  split at h
  · simp only [Option.bind_eq_some_iff] at h
    obtain ⟨r, -, h⟩ := h
    cases h
  cases h
  obtain ⟨hfree, htree⟩ := mbptreeInit_sound three_le_branchFactor hinit
  refine ⟨hfree, htree, fun a ha => ?_⟩
  obtain ⟨rest, rfl⟩ := mbptreeInit_eq (show 0 < branchFactor by decide) hinit
  obtain ⟨x, n, i, hn, -, hi, -⟩ := ha
  rw [Heap.get_alloc] at hn
  split at hn
  · cases hn
    exact absurd hi (Nat.not_lt_zero i)
  · cases hn

/-- **The index refers to open segments** after every run of calls in which it does not panic. -/
theorem segments_open_of_no_panic {page : PageSize} {calls : LogCalls} {dir' : Dir}
    {names : List (List Char)} {size flags : Nat} {rc : Int} {lg lg' : MqLog}
    (hnames : Lists names Dir.empty)
    (hopen : mqlogOpen page calls Dir.empty names size flags = some (rc, some lg, dir'))
    {cs : List MqlogCall} (hkeeps : Along (mqlogStep page) (KeepsIndex page) lg cs)
    (hrun : run (mqlogStep page) lg cs = some lg') : SegmentsOpen lg' :=
  (run_invariant (fun _ _ _ hkeeps hinv hstep => mqlogStep_indexOpen hinv hkeeps hstep) cs lg lg'
    hkeeps
    (mqlogOpen_indexOpen hnames hopen) hrun).segmentsOpen

/-- The last leaf of the index has room left, or it is the root and gets one, or all allocations
    succeed. -/
def hasRoom (lg : MqLog) : Bool :=
  mbptreeNodeFull lg.index lg.index.lastLeaf = some false ||
    mbptreeIsRoot lg.index lg.index.lastLeaf = some true || lg.index.allocs.isEmpty

theorem keepsIndex_of_hasRoom {page : PageSize} {lg : MqLog} (h : hasRoom lg = true)
    (c : MqlogCall) :
    KeepsIndex page lg c := by
  cases c with
  | write buf =>
    rintro key - ⟨⟨n, -, -, hfull, hroot⟩, -, n', k, -, -, hfails⟩
    simp only [hasRoom, hfull, hroot, Bool.or_eq_true, decide_eq_true_eq] at h
    rcases h with (hroom | hroom) | hempty
    · exact absurd (Option.some.inj hroom) Bool.noConfusion
    · exact absurd (Option.some.inj hroom) Bool.noConfusion
    · -- no allocation fails
      refine hfails fun ok hok => ?_
      have hnil : lg.index.allocs = [] := List.isEmpty_iff.mp hempty
      simp only [hnil, List.tail_nil, List.take_nil, List.not_mem_nil] at hok
  | read offset => exact trivial
  | sync => exact trivial

/-- Six segments fill the only leaf of the index. -/
def fillLeaf : List MqlogCall := List.replicate 6 (.write (bytes 4072 0x61 (by decide)))

/-- Two writes that need a seventh segment, six more segments, and a read. -/
def growIndex : List MqlogCall :=
  List.replicate 2 (.write (oneByte 0x62)) ++
    List.replicate 6 (.write (bytes 4072 0x63 (by decide))) ++ [.read 0]

/-- The allocations of the new root and of the second leaf are the third and the fourth.  The fourth
    fails: the root is taken back, the seventh segment is closed and the write returns `ELIDXOP`.
    The next write opens the segment again and puts it into the index; when the second leaf is full,
    a third one is added. -/
theorem segments_open_of_rollback :
    ∃ lg lg₁ lg', mqlogOpen page4096 { LogCalls.ok with allocs := [true, true, true, false] }
        Dir.empty [] 4096 mqlogRddrt = some (0, some lg, Dir.empty) ∧
      run (mqlogStep page4096) lg fillLeaf = some lg₁ ∧
      (mqlogWrite page4096 lg₁ (oneByte 0x62)).map Prod.fst = some ELIDXOP ∧
      run (mqlogStep page4096) lg (fillLeaf ++ growIndex) = some lg' ∧
      mbptreeIsRoot lg'.index lg'.index.lastLeaf = some false ∧ SegmentsOpen lg' := by
  have hopen : mqlogOpen page4096 { LogCalls.ok with allocs := [true, true, true, false] }
    Dir.empty [] 4096 mqlogRddrt = some (0, some _, Dir.empty) := rfl
  have hruns : ((mqlogOpen page4096 { LogCalls.ok with allocs := [true, true, true, false] }
      Dir.empty [] 4096 mqlogRddrt).bind fun r => r.2.1.bind fun lg =>
        (run (mqlogStep page4096) lg fillLeaf).bind fun lg₁ =>
          (run (mqlogStep page4096) lg (fillLeaf ++ growIndex)).map fun lg' =>
            ((mqlogWrite page4096 lg₁ (oneByte 0x62)).map Prod.fst,
              mbptreeIsRoot lg'.index lg'.index.lastLeaf,
              decide (Along (mqlogStep page4096) (fun lg _ => hasRoom lg = true) lg (fillLeaf ++
                growIndex)))) =
      some (some ELIDXOP, some false, true) := by
    decide +kernel
  rw [hopen, Option.bind_some, Option.bind_some, Option.bind_eq_some_iff] at hruns
  obtain ⟨lg₁, hfill, hruns⟩ := hruns
  obtain ⟨lg', hrun, hs⟩ := Option.map_eq_some_iff.mp hruns
  obtain ⟨hcode, hs⟩ := Prod.mk.inj hs
  obtain ⟨hgrown, hroom⟩ := Prod.mk.inj hs
  have hkeeps : Along (mqlogStep page4096) (KeepsIndex page4096) _ (fillLeaf ++ growIndex) :=
    Along.imp (fun _ c _ hroom => keepsIndex_of_hasRoom hroom c) (fun _ _ _ _ _ _ => trivial) _ _
      trivial
      (of_decide_eq_true hroom)
  exact ⟨_, lg₁, lg', hopen, hfill, hcode, hrun, hgrown,
    segments_open_of_no_panic lists_nil hopen hkeeps hrun⟩

/-- The index refers to a segment that is not open. -/
def dangles (lg : MqLog) : Bool :=
  match mbptreeLastValue lg.index with
  | some (some addr) => (lg.segs.get addr).isNone
  | _ => false

theorem not_segmentsOpen_of_dangles {lg : MqLog} (h : dangles lg = true) : ¬ SegmentsOpen lg := by
  intro hopen
  unfold dangles at h
  split at h
  · rename_i addr hvalue
    obtain ⟨sgm, hget⟩ := hopen.last addr hvalue
    rw [hget] at h
    cases h
  · cases h

/-- After 42 segments the seven leaves of the index and their parent are full.  The allocation of
    the eighth leaf succeeds, that of the parent's other half does not: the index keeps the segment
    that the 43rd write closes. -/
theorem segment_closed_in_panic :
    ∃ lg lg', mqlogOpen page4096 { LogCalls.ok with allocs := List.replicate 10 true ++ [false] }
        Dir.empty [] 4096 mqlogRddrt = some (0, some lg, Dir.empty) ∧
      run (mqlogStep page4096) lg (List.replicate 43 (.write (bytes 4072 0x61 (by decide)))) =
        some lg' ∧ ¬ SegmentsOpen lg' := by
  have hopen : mqlogOpen page4096 { LogCalls.ok with allocs := List.replicate 10 true ++ [false] }
    Dir.empty [] 4096 mqlogRddrt = some (0, some _, Dir.empty) := rfl
  have hruns : ((mqlogOpen page4096 { LogCalls.ok with allocs := List.replicate 10 true ++ [false] }
      Dir.empty [] 4096 mqlogRddrt).bind fun r => r.2.1.bind fun lg => (run (mqlogStep page4096) lg
        (List.replicate 43 (.write (bytes 4072 0x61 (by decide))))).map dangles) = some true := by
    decide +kernel
  rw [hopen, Option.bind_some, Option.bind_some, Option.map_eq_some_iff] at hruns
  obtain ⟨lg', hrun, hdangles⟩ := hruns
  exact ⟨_, lg', hopen, hrun, not_segmentsOpen_of_dangles hdangles⟩

end Mqlog
