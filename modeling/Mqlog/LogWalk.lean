/-
  What closing a log closes.

  `mqlog_close` iterates over the index from `mbptree_leaf_first` on and calls `segment_close` at
  every entry; to close a segment is here to make that call, which may fail and leave the segment
  open.  `Indexes lg es` is what holds of every log between two calls as long as the allocations of
  the index succeed: the index holds the entries `es`, and each of them is the base offset and the
  address of an open segment.  From it:

  1. the walk closes the segments in front of the first iterator, each once
     (`mqlogCloseTraced_spec`);
  2. these are all segments exactly when there is none or the lowest base offset is `0`
     (`closesEachOnce_iff`);
  3. opening a directory establishes `Indexes`, and every call keeps it (`mqlogStep_indexed`).

  `mbptree_leaf_first` is the floor of the key `0`, and not the leftmost leaf.  Where the smallest
  key is greater than `0` there is no floor, the iterator is exhausted at once, and the loop of
  `mqlog_close` is not entered: the segments stay mapped.  A log that was written by this library
  has its first segment at base offset `0`; a directory from which the first segment was removed has
  not.

  The trace of a close is what it passes to `segment_close` (`mqlogCloseTraced`), since the calls
  themselves leave no more behind than files; `mqlogCloseTraced_eq` says that it is `mqlog_close`.

  `Indexes` differs from `IndexOpen` in that it names the entries: no address is there twice, and
  the base offset of a segment is its key.  Both are kept by the same cases of the calls.
-/
import Mqlog.LogIndex
import Mqlog.LogOrder

namespace Mqlog

open Lib Lib.Mem Lib.Records

/-! ## A close that records what it closes -/

/-- The loop of `mqlog_close`, with the addresses that it passes to `segment_close`. -/
def closeSegmentsTraced (page : PageSize) :
    Nat → MqLog → LeafIterator → Nat → Option (List Nat × Nat × MqLog)
  | 0, _, _, _ => none
  | fuel + 1, lg, iterator, errors => do
    if (← mbptreeLeafIteratorValid lg.index iterator) = false then pure ([], errors, lg)
    else do
      let addr ← mbptreeLeafIteratorValue lg.index iterator
      let (rc, lg) ← closeSegment page lg addr
      let iterator ← mbptreeLeafIteratorNext lg.index iterator
      let (closed, errors, lg) ←
        closeSegmentsTraced page fuel lg iterator (if rc ≠ 0 then errors + 1 else errors)
      pure (addr :: closed, errors, lg)

/-- `mqlog_close`, with the addresses that it passes to `segment_close`. -/
def mqlogCloseTraced (page : PageSize) (lg : MqLog) : Option (List Nat × Int × MqLog) := do
  let (rc, iterator, index) ← mbptreeLeafFirst lg.index
  let lg := { lg with index := index }
  if rc ≠ 0 then pure ([], rc, lg)
  else do
    let iterator ← iterator
    let (closed, errors, lg) ← closeSegmentsTraced page lg.segs.next lg iterator 0
    let (rc, index) ← mbptreeFree lg.index
    let errors := if rc ≠ 0 then errors + 1 else errors
    pure (closed, if errors = 0 then 0 else ELLGCLS, { lg with index := index })

theorem closeSegmentsTraced_eq (page : PageSize) : ∀ (fuel : Nat) (lg : MqLog) (it : LeafIterator)
    (errors : Nat), (closeSegmentsTraced page fuel lg it errors).map Prod.snd =
      closeSegments page fuel lg it errors
  | 0, _, _, _ => rfl
  | fuel + 1, lg, it, errors => by
    rw [closeSegmentsTraced, closeSegments]
    simp only [Option.bind_eq_bind, Option.pure_def]
    rcases mbptreeLeafIteratorValid lg.index it with _ | _ | _
    · rfl
    · rfl
    · simp only [Option.bind_some, Bool.true_eq_false, if_false]
      rcases mbptreeLeafIteratorValue lg.index it with _ | addr
      · rfl
      · simp only [Option.bind_some]
        rcases closeSegment page lg addr with _ | ⟨rc, lg'⟩
        · rfl
        · simp only [Option.bind_some]
          rcases mbptreeLeafIteratorNext lg'.index it with _ | it'
          · rfl
          · simp only [Option.bind_some]
            rw [← closeSegmentsTraced_eq page fuel lg' it']
            rcases closeSegmentsTraced page fuel lg' it' _ with _ | r
            · rfl
            · rfl

/-- It is the same code. -/
theorem mqlogCloseTraced_eq (page : PageSize) (lg : MqLog) :
    (mqlogCloseTraced page lg).map Prod.snd = mqlogClose page lg := by
  rw [mqlogCloseTraced, mqlogClose]
  simp only [Option.bind_eq_bind, Option.pure_def]
  rcases mbptreeLeafFirst lg.index with _ | ⟨rc, iterator, index⟩
  · rfl
  · simp only [Option.bind_some]
    by_cases hrc : rc ≠ 0
    · rw [if_pos hrc, if_pos hrc]
      rfl
    · rw [if_neg hrc, if_neg hrc]
      rcases iterator with _ | iterator
      · rfl
      · simp only [Option.bind_some]
        rw [← closeSegmentsTraced_eq]
        rcases closeSegmentsTraced page lg.segs.next { lg with index := index } iterator 0 with
          _ | ⟨closed, errors, lg'⟩
        · rfl
        · simp only [Option.bind_some, Option.map_some]
          rcases mbptreeFree lg'.index with _ | ⟨rc', index'⟩
          · rfl
          · rfl

/-! ## The index and the segments -/

/-- The index holds the entries `es`, and each of them is the base offset and the address of an open
    segment. -/
structure Indexes (lg : MqLog) (es : List Data) : Prop where
  tree : TreeHolds branchFactor lg.index es
  nodup : (es.map Data.value).Nodup
  opened : ∀ d ∈ es, ∃ sgm, lg.segs.get d.value = some sgm ∧ sgm.baseOffset = d.key

namespace Indexes

variable {page : PageSize} {lg lg' : MqLog} {es : List Data} {addr : Nat} {rc : Int} {buf : Buf}

theorem open_value (h : Indexes lg es) :
    ∀ a ∈ es.map Data.value, ∃ sgm, lg.segs.get a = some sgm := by
  intro a ha
  obtain ⟨d, hd, rfl⟩ := List.mem_map.mp ha
  obtain ⟨sgm, hget, -⟩ := h.opened d hd
  exact ⟨sgm, hget⟩

/-- Other segments may come and go. -/
theorem congr (h : Indexes lg es) (hindex : lg'.index = lg.index)
    (hsegs : ∀ a sgm, a ∈ es.map Data.value → lg.segs.get a = some sgm →
      ∃ sgm', lg'.segs.get a = some sgm' ∧ sgm'.baseOffset = sgm.baseOffset) : Indexes lg' es where
  tree := by rw [hindex]; exact h.tree
  nodup := h.nodup
  opened d hd := by
    obtain ⟨sgm, hget, hbase⟩ := h.opened d hd
    obtain ⟨sgm', hget', hbase'⟩ := hsegs d.value sgm (List.mem_map_of_mem hd) hget
    exact ⟨sgm', hget', hbase'.trans hbase⟩

theorem value_lt (h : Indexes lg es) : ∀ a ∈ es.map Data.value, a < lg.segs.next := by
  intro a ha
  obtain ⟨sgm, hget⟩ := h.open_value a ha
  exact Heap.lt_next hget

/-- The segment at an address may change, but not its base offset. -/
theorem set (h : Indexes lg es) {sgm sgm' : Segment} (hget : lg.segs.get addr = some sgm)
    (hbase : sgm'.baseOffset = sgm.baseOffset) :
    Indexes { lg with segs := lg.segs.set addr sgm' } es := by
  refine h.congr rfl fun a sgm₁ _ hget₁ => ?_
  by_cases ha : a = addr
  · subst ha
    rw [hget] at hget₁
    obtain rfl := Option.some.inj hget₁
    exact ⟨sgm', Heap.get_set_self hget, hbase⟩
  · exact ⟨sgm₁, (Heap.get_set_of_ne ha).trans hget₁, rfl⟩

/-- A segment that is not in the index may be closed. -/
theorem closeSegment (h : Indexes lg es) (hnot : addr ∉ es.map Data.value)
    (hclose : closeSegment page lg addr = some (rc, lg')) : Indexes lg' es := by
  obtain ⟨⟨hindex, -⟩, hsegs⟩ := closeSegment_cases hclose
  refine h.congr hindex fun a sgm ha hget => ⟨sgm, ?_, rfl⟩
  rw [hsegs a fun heq => hnot (heq ▸ ha)]
  exact hget

/-- A new segment is not in the index. -/
theorem alloc {new : Segment} (h : Indexes lg es) (hsame : SameIndex lg lg')
    (hsegs : lg'.segs = lg.segs.alloc new) : Indexes lg' es ∧ lg.segs.next ∉ es.map Data.value ∧
      lg'.segs.get lg.segs.next = some new := by
  refine ⟨h.congr hsame.index_eq fun _ sgm _ hget => ⟨sgm, ?_, rfl⟩,
    fun hmem => absurd (h.value_lt _ hmem) (Nat.lt_irrefl _), ?_⟩
  · rw [hsegs]
    exact Heap.get_alloc_of_get hget
  · rw [hsegs]
    exact Heap.get_alloc_self ..

/-- An open segment that is not in the index is appended to it, or the index stays as it is. -/
theorem append (h : Indexes lg es) {sgm : Segment} {index : Mbptree}
    (hnot : addr ∉ es.map Data.value) (hget : lg.segs.get addr = some sgm)
    (happend : mbptreeAppend lg.index sgm.baseOffset addr = some (rc, index)) :
    (rc = 0 ∧ Indexes { lg with index := index } (es ++ [⟨sgm.baseOffset, addr⟩])) ∨
      (rc = ELIDXNM ∧ index = lg.index) := by
  obtain ⟨index', heq, htree, hsame⟩ :=
    mbptreeAppend_spec three_le_branchFactor h.tree sgm.baseOffset addr
  obtain ⟨rfl, rfl⟩ := Prod.mk.inj (Option.some.inj (happend.symm.trans heq))
  by_cases hkey : ∀ d ∈ es, d.key < sgm.baseOffset
  · rw [sortedAppend, if_pos hkey] at htree ⊢
    refine Or.inl ⟨rfl, htree, ?_, fun d hd => ?_⟩
    · rw [List.map_append, List.map_singleton]
      refine List.nodup_append.mpr ⟨h.nodup, List.nodup_singleton _, ?_⟩
      rintro a ha b hb rfl
      have heq : a = addr := List.mem_singleton.mp hb
      exact hnot (heq ▸ ha)
    · rcases List.mem_append.mp hd with hd | hd
      · exact h.opened d hd
      · rw [List.mem_singleton.mp hd]
        exact ⟨sgm, hget, rfl⟩
  · rw [sortedAppend, if_neg hkey] at hsame ⊢
    exact Or.inr ⟨rfl, hsame rfl⟩

end Indexes

/-- The trace has one call of `segment_close` for every segment of the index.  The call itself may
    fail and leave the segment open. -/
def ClosesEachOnce (closed : List Nat) (es : List Data) : Prop :=
  ∀ d ∈ es, closed.count d.value = 1

theorem closeSegmentsTraced_spec (page : PageSize) {b : Nat} : ∀ (rest : List Data) {lg : MqLog}
    {it : LeafIterator} {fuel : Nat} (errors : Nat), Cursor lg.index.heap b it rest →
    rest.length < fuel → (rest.map Data.value).Nodup →
    (∀ a ∈ rest.map Data.value, ∃ sgm, lg.segs.get a = some sgm) →
    ∃ errors' lg', closeSegmentsTraced page fuel lg it errors =
        some (rest.map Data.value, errors', lg') ∧ lg'.index = lg.index
  | rest, _, _, 0, _, _, hfuel, _, _ => absurd hfuel (Nat.not_lt_zero _)
  | [], lg, it, fuel + 1, errors, hc, _, _, _ => by
    refine ⟨errors, lg, ?_, rfl⟩
    rw [closeSegmentsTraced, hc.valid_nil]
    rfl
  | d :: rest, lg, it, fuel + 1, errors, hc, hfuel, hnodup, hopen => by
    rw [List.map_cons] at hnodup hopen
    obtain ⟨hnot, hnodup⟩ := List.nodup_cons.mp hnodup
    obtain ⟨sgm, hget⟩ := hopen d.value List.mem_cons_self
    obtain ⟨rc, lg₁, hclose⟩ := closeSegment_returns page hget
    obtain ⟨⟨hindex, -⟩, hsegs⟩ := closeSegment_cases hclose
    obtain ⟨it', hnext, hc'⟩ := hc.next
    have hothers : ∀ a ∈ rest.map Data.value, ∃ sgm, lg₁.segs.get a = some sgm := by
      intro a ha
      rw [hsegs a fun heq => hnot (heq ▸ ha)]
      exact hopen a (List.mem_cons_of_mem _ ha)
    obtain ⟨errors', lg', hrest, hindex'⟩ := closeSegmentsTraced_spec page rest
      (if rc ≠ 0 then errors + 1 else errors) (hindex ▸ hc') (Nat.lt_of_succ_lt_succ hfuel) hnodup
        hothers
    refine ⟨errors', lg', ?_, hindex'.trans hindex⟩
    rw [closeSegmentsTraced, hc.valid_cons, hc.key_value.2]
    simp only [Option.bind_eq_bind, Option.bind_some, Bool.true_eq_false, if_false, hclose, hindex,
      hnext, hrest]
    rfl

/-- **The walk closes what is in front of the first iterator**, each segment once. -/
theorem mqlogCloseTraced_spec (page : PageSize) {lg : MqLog} {es : List Data} (h : Indexes lg es) :
    ∃ rc lg', mqlogCloseTraced page lg = some ((fromFirst es).map Data.value, rc, lg') := by
  obtain ⟨it, hfirst, hcursor⟩ := mbptreeLeafFirst_spec three_le_branchFactor h.tree
  have hsub : ((fromFirst es).map Data.value).Sublist (es.map Data.value) := by
    rcases fromFirst_cases es with heq | heq
    · rw [heq]
    · rw [heq]
      exact List.nil_sublist _
  have hnodup := h.nodup.sublist hsub
  have hopen : ∀ a ∈ (fromFirst es).map Data.value, ∃ sgm, lg.segs.get a = some sgm := fun a ha =>
    h.open_value a (hsub.subset ha)
  have hfuel := length_lt_next hnodup hopen
  rw [List.length_map] at hfuel
  obtain ⟨errors, lg', hwalk, hindex⟩ :=
    closeSegmentsTraced_spec page (fromFirst es) 0 hcursor hfuel
    hnodup hopen
  obtain ⟨t', hfree⟩ := mbptreeFree_spec three_le_branchFactor h.tree
  refine ⟨if errors = 0 then 0 else ELLGCLS, { lg' with index := t' }, ?_⟩
  rw [mqlogCloseTraced, hfirst]
  simp only [Option.bind_eq_bind, Option.bind_some, ne_eq, not_true_eq_false, if_false, hwalk,
    hindex, hfree, Option.pure_def]

/-- What is in front of the first iterator is every segment exactly when there is none or the lowest
    base offset is `0`. -/
theorem closesEachOnce_iff {es : List Data} (hnodup : (es.map Data.value).Nodup) :
    ClosesEachOnce ((fromFirst es).map Data.value) es ↔ ∀ d ∈ es.head?, d.key = 0 := by
  rw [← fromFirst_eq_self]
  constructor
  · intro h
    rcases fromFirst_cases es with heq | heq
    · exact heq
    · cases es with
      | nil => rfl
      | cons d rest =>
        have hcount := h d List.mem_cons_self
        rw [heq] at hcount
        exact absurd hcount (show (0 : Nat) ≠ 1 by decide)
  · intro h d hd
    rw [h]
    exact List.count_eq_one_of_mem hnodup (List.mem_map_of_mem hd)

/-! ## Every log indexes its segments -/

/-- The index of the log is a list of its segments. -/
def Indexed (lg : MqLog) : Prop := ∃ es, Indexes lg es

namespace Indexed

variable {page : PageSize} {lg lg' : MqLog} {es : List Data} {addr : Nat} {rc : Int} {buf : Buf}

/-- **A new segment** is indexed or closed. -/
theorem indexSegment {written : Int} (h : Indexes lg es) (hnot : addr ∉ es.map Data.value)
    (hindex : indexSegment page lg addr written = some (rc, lg')) : Indexed lg' := by
  obtain ⟨sgm, code, index, hget, happend, hcases⟩ := indexSegment_cases hindex
  rcases h.append hnot hget happend with ⟨rfl, hes⟩ | ⟨rfl, rfl⟩
  · rcases hcases with ⟨-, -, rfl⟩ | ⟨hne, -⟩
    · exact ⟨_, hes⟩
    · exact absurd rfl hne
  · rcases hcases with ⟨hzero, -⟩ | ⟨-, -, rc', hclose⟩
    · exact absurd hzero (by decide)
    · exact ⟨es, h.closeSegment hnot hclose⟩

theorem startSegment {b : Nat} (h : Indexes lg es)
    (hstart : startSegment page lg b buf = some (rc, lg')) : Indexed lg' := by
  rcases startSegment_cases hstart with hcreate |
    ⟨code, addr, lg₁, written, lg₂, hcreate, hwrite, hcases⟩
  · obtain ⟨hsame, hsegs, -⟩ := openSegment_none hcreate
    exact ⟨es, h.congr hsame.index_eq fun _ sgm _ hget => ⟨sgm, by rw [hsegs]; exact hget, rfl⟩⟩
  · obtain ⟨hsame, rfl, new, files, -, hsegs⟩ := openSegment_some hcreate
    obtain ⟨h₁, hnot, -⟩ := h.alloc hsame hsegs
    obtain ⟨sgm, hget, -, rfl⟩ := writeSegment_cases hwrite
    have h₂ := h₁.set hget (segmentWrite_baseOffset sgm buf)
    rcases hcases with ⟨-, -, rc', hclose⟩ | ⟨-, hindex⟩
    · exact ⟨es, h₂.closeSegment hnot hclose⟩
    · exact indexSegment h₂ hnot hindex

/-- A write to the log. -/
theorem mqlogTrywrite (h : Indexes lg es) (htry : mqlogTrywrite page lg buf = some (rc, lg')) :
    Indexed lg' := by
  rcases mqlogTrywrite_cases htry with ⟨-, hstart⟩ | ⟨addr, sgm, -, hget, ⟨-, -, rfl⟩ | ⟨-, hstart⟩⟩
  · exact startSegment h hstart
  · exact ⟨es, h.set hget (segmentWrite_baseOffset sgm buf)⟩
  · exact startSegment (h.set hget (segmentWrite_baseOffset sgm buf)) hstart

/-- A search leaves the index as it is. -/
theorem leafFloor {key : Nat} {it : Option LeafIterator} {index : Mbptree} (h : Indexes lg es)
    (hfloor : mbptreeLeafFloor lg.index key = some (rc, it, index)) (locked : Bool) :
    Indexes { lg with index := index, locked := locked } es := by
  obtain ⟨it', heq, -⟩ := mbptreeLeafFloor_spec three_le_branchFactor h.tree key
  rw [heq] at hfloor
  cases hfloor
  exact h.congr rfl fun _ sgm _ hget => ⟨sgm, hget, rfl⟩

theorem mqlogSync (h : Indexes lg es) (hsync : mqlogSync page lg = some (rc, lg')) :
    Indexes lg' es := by
  rcases mqlogSync_cases hsync with rfl | ⟨addr, sgm, msyncs, hget, hsame, hsegs⟩
  · exact h
  · have hset := h.set hget (segmentSync_frame page sgm msyncs).2.2.1
    refine hset.congr hsame.index_eq fun _ sgm' _ hget' => ⟨sgm', ?_, rfl⟩
    rw [hsegs]
    exact hget'

/-- A file of the directory is indexed or closed again. -/
theorem loadSegment {name : List Char} (h : Indexes lg es)
    (hload : loadSegment page lg name = some (rc, lg')) : Indexed lg' := by
  rcases loadSegment_cases hload with ⟨-, hsame, hsegs⟩ |
    ⟨sgm, lg₁, code, index, hsame, hsegs, hbase, happend, hcases⟩
  · exact ⟨es, h.congr hsame.index_eq fun _ sgm _ hget => ⟨sgm, by rw [hsegs]; exact hget, rfl⟩⟩
  · obtain ⟨h₁, hnot, hget⟩ := h.alloc hsame hsegs
    rw [← hbase] at happend
    rcases h₁.append hnot hget happend with ⟨rfl, hes⟩ | ⟨rfl, rfl⟩
    · rcases hcases with ⟨-, -, rfl⟩ | ⟨hne, -⟩
      · exact ⟨_, hes⟩
      · exact absurd rfl hne
    · rcases hcases with ⟨hzero, -⟩ | ⟨-, -, rc', hclose⟩
      · exact absurd hzero (by decide)
      · exact ⟨es, h₁.closeSegment hnot hclose⟩

theorem loadSegments : ∀ {names : List (List Char)} {lg : MqLog}, Indexed lg →
    loadSegments page lg names = some (rc, lg') → Indexed lg'
  | [], _, h, hload => by
    cases hload
    exact h
  | name :: names, lg, h, hload => by
    rw [Mqlog.loadSegments] at hload
    split at hload
    · simp only [Option.bind_eq_bind, Option.bind_eq_some_iff, Option.pure_def] at hload
      obtain ⟨⟨code, lg₁⟩, hload₁, hload⟩ := hload
      obtain ⟨es, hes⟩ := h
      have h₁ := loadSegment hes hload₁
      split at hload
      · cases hload
        exact h₁
      · exact loadSegments h₁ hload
    · exact loadSegments h hload

end Indexed

/-- **Opening a directory** gives a log whose index is a list of its segments. -/
theorem mqlogOpen_indexed {page : PageSize} {calls : LogCalls} {dir dir' : Dir}
    {names : List (List Char)} {size flags : Nat} {rc : Int} {lg : MqLog}
    (hallocs : calls.allocs = []) (hopen : mqlogOpen page calls dir names size flags =
      some (rc, some lg, dir')) : Indexed lg := by
  obtain ⟨t, hinit, htree⟩ := mbptreeInit_spec three_le_branchFactor
  rw [mqlogOpen, hallocs, hinit] at hopen
  split at hopen
  · cases hopen
  split at hopen
  · cases hopen
  split at hopen
  · cases hopen
  simp only [Option.bind_eq_bind, Option.pure_def] at hopen
  split at hopen
  · rw [Option.bind_eq_some_iff] at hopen
    obtain ⟨r, -, hopen⟩ := hopen
    cases hopen
  · rw [Option.bind_eq_some_iff] at hopen
    obtain ⟨⟨code, lg₁⟩, hload, hopen⟩ := hopen
    dsimp only at hopen
    split at hopen
    · rw [Option.bind_eq_some_iff] at hopen
      obtain ⟨r, -, hopen⟩ := hopen
      cases hopen
    · cases hopen
      exact Indexed.loadSegments ⟨[], htree, List.nodup_nil, fun d hd => absurd hd List.not_mem_nil⟩
        hload

/-- **The step lemma**: every call keeps it. -/
theorem mqlogStep_indexed {page : PageSize} {lg lg' : MqLog} {call : MqlogCall} (h : Indexed lg)
    (hstep : mqlogStep page lg call = some lg') : Indexed lg' := by
  obtain ⟨es, h⟩ := h
  have hlock : ∀ {lg : MqLog} {es : List Data} (locked : Bool), Indexes lg es →
      Indexes { lg with locked := locked } es := fun _ h =>
    h.congr rfl fun _ sgm _ hget => ⟨sgm, hget, rfl⟩
  rcases mqlogStep_cases hstep with rfl | ⟨buf, rc, lg₁, rfl, -, -, htry, rfl⟩ |
    ⟨offset, code, it, index, locked, hfloor, rfl⟩ | ⟨rc, hsync⟩
  · exact ⟨es, h⟩
  · obtain ⟨es', h'⟩ := Indexed.mqlogTrywrite (hlock true h) htry
    exact ⟨es', hlock false h'⟩
  · exact ⟨es, Indexed.leafFloor h hfloor locked⟩
  · exact ⟨es, Indexed.mqlogSync h hsync⟩

/-! ## Iterating from the first entry -/

/-- Closing a log calls `segment_close` for every segment in its index once exactly when there is
    none or the lowest base offset is `0`. -/
theorem Indexes.close_iff (page : PageSize) {lg : MqLog} {es : List Data} (h : Indexes lg es) :
    ∃ closed rc lg', mqlogCloseTraced page lg = some (closed, rc, lg') ∧
      (ClosesEachOnce closed es ↔ ∀ d ∈ es.head?, d.key = 0) := by
  obtain ⟨rc, lg', hclose⟩ := mqlogCloseTraced_spec page h
  exact ⟨_, rc, lg', hclose, closesEachOnce_iff h.nodup⟩

/-- **Iterating from the first entry** visits the entries of a tree, each once and in increasing
    order of key, exactly when there is none or the smallest key is `0`; and closing a log, after
    opening any directory and any calls, calls `segment_close` for each of its segments once exactly
    when there is none or the lowest base offset is `0`. -/
theorem walk_complete_iff {b : Nat} (hb : 3 ≤ b) (keys : List (Nat × Nat)) {page : PageSize}
    {calls : LogCalls} {dir dir' : Dir} {names : List (List Char)} {size flags : Nat} {rc : Int}
    {lg lg' : MqLog} (hallocs : calls.allocs = [])
    (hopen : mqlogOpen page calls dir names size flags = some (rc, some lg, dir'))
    {cs : List MqlogCall} (hrun : run (mqlogStep page) lg cs = some lg') :
    (∃ t₀ rcs t, mbptreeInit b [] = some t₀ ∧ appendAll t₀ keys = some (rcs, t) ∧
      Sorted (accepted keys rcs) ∧ ∀ fuel, (accepted keys rcs).length < fuel →
        (visitTree fuel t = some (accepted keys rcs) ↔ ∀ d ∈ (accepted keys rcs).head?, d.key =
          0)) ∧
    ∃ es closed code lg'', chainEntries lg'.index = some es ∧
      (∀ d ∈ es, ∃ sgm, lg'.segs.get d.value = some sgm ∧ sgm.baseOffset = d.key) ∧
      mqlogCloseTraced page lg' = some (closed, code, lg'') ∧
      (ClosesEachOnce closed es ↔ ∀ d ∈ es.head?, d.key = 0) := by
  constructor
  · obtain ⟨t₀, rcs, t, hinit, hrun, h⟩ := init_accepted hb keys
    exact ⟨t₀, rcs, t, hinit, hrun, h.sorted, fun fuel hfuel => visitTree_complete_iff hb h hfuel⟩
  · obtain ⟨es, h⟩ := run_invariant_all (fun _ _ _ h hstep => mqlogStep_indexed h hstep)
      (mqlogOpen_indexed hallocs hopen) hrun
    obtain ⟨closed, code, lg'', hclose, hiff⟩ := h.close_iff page
    exact ⟨es, closed, code, lg'', chainEntries_spec three_le_branchFactor h.tree, h.opened, hclose,
      hiff⟩

/-- A directory with one segment, which is empty and has base offset 5. -/
def lateDir : Dir := Dir.empty.put 5 ⟨some ⟨4096, fun _ => 0⟩, some ⟨341, fun _ => 0⟩⟩

/-- Branch factor 3 and the keys 0 and 4; and the log of `lateDir`, after a sync. -/
theorem walk_complete_iff_of_late :
    ∃ lg lg', mqlogOpen page4096 .ok lateDir [dataFilename 5] 4096 mqlogRddrt =
        some (0, some lg, lg.dir) ∧ run (mqlogStep page4096) lg [.sync] = some lg' ∧
      ((∃ t₀ rcs t, mbptreeInit 3 [] = some t₀ ∧ appendAll t₀ [(0, 10), (4, 20)] = some (rcs, t) ∧
        Sorted (accepted [(0, 10), (4, 20)] rcs) ∧
        ∀ fuel, (accepted [(0, 10), (4, 20)] rcs).length < fuel →
          (visitTree fuel t = some (accepted [(0, 10), (4, 20)] rcs) ↔
            ∀ d ∈ (accepted [(0, 10), (4, 20)] rcs).head?, d.key = 0)) ∧
      ∃ es closed code lg'', chainEntries lg'.index = some es ∧
        (∀ d ∈ es, ∃ sgm, lg'.segs.get d.value = some sgm ∧ sgm.baseOffset = d.key) ∧
        mqlogCloseTraced page4096 lg' = some (closed, code, lg'') ∧
        (ClosesEachOnce closed es ↔ ∀ d ∈ es.head?, d.key = 0)) := by
  obtain ⟨lg, hopen⟩ : ∃ lg, mqlogOpen page4096 .ok lateDir [dataFilename 5] 4096 mqlogRddrt =
    some (0, some lg, lg.dir) := ⟨_, rfl⟩
  have hruns : ((mqlogOpen page4096 .ok lateDir [dataFilename 5] 4096 mqlogRddrt).bind fun r =>
      r.2.1.bind fun lg => run (mqlogStep page4096) lg [.sync]).isSome = true := by decide +kernel
  rw [hopen, Option.bind_some, Option.bind_some, Option.isSome_iff_exists] at hruns
  obtain ⟨lg', hrun⟩ := hruns
  exact ⟨lg, lg', hopen, hrun, walk_complete_iff (by decide) _ rfl hopen hrun⟩

/-- A tree with the single key 5 is not visited at all, and the only segment of `lateDir` is not
    closed. -/
theorem walk_misses_first_key :
    (∃ t₀ t, mbptreeInit 3 [] = some t₀ ∧ appendAll t₀ [(5, 50)] = some ([0], t) ∧
      chainEntries t = some [⟨5, 50⟩] ∧ ∀ fuel, 1 < fuel → visitTree fuel t = some []) ∧
    ∃ lg d lg', mqlogOpen page4096 .ok lateDir [dataFilename 5] 4096 mqlogRddrt =
        some (0, some lg, lg.dir) ∧ chainEntries lg.index = some [d] ∧
      mqlogCloseTraced page4096 lg = some ([], 0, lg') ∧ ¬ ClosesEachOnce [] [d] := by
  constructor
  · obtain ⟨t₀, t, hinit, hrun, h⟩ := init_appendAll (show 3 ≤ 3 by decide) [(5, 50)]
    exact ⟨t₀, t, hinit, hrun, chainEntries_spec (by decide) h, fun fuel hfuel =>
      visitTree_eq (by decide) h hfuel⟩
  · obtain ⟨lg, hopen⟩ : ∃ lg, mqlogOpen page4096 .ok lateDir [dataFilename 5] 4096 mqlogRddrt =
      some (0, some lg, lg.dir) := ⟨_, rfl⟩
    have hentries : ((mqlogOpen page4096 .ok lateDir [dataFilename 5] 4096 mqlogRddrt).bind fun r =>
        r.2.1.bind fun lg => chainEntries lg.index) = some [⟨5, 1⟩] := by decide +kernel
    have hcloses : ((mqlogOpen page4096 .ok lateDir [dataFilename 5] 4096 mqlogRddrt).bind fun r =>
        r.2.1.bind fun lg => (mqlogCloseTraced page4096 lg).map fun r => (r.1, r.2.1)) =
            some ([], 0) := by
      decide +kernel
    rw [hopen, Option.bind_some, Option.bind_some] at hentries hcloses
    obtain ⟨⟨closed, code, lg'⟩, hclose, heq⟩ := Option.map_eq_some_iff.mp hcloses
    obtain ⟨rfl, rfl⟩ := Prod.mk.inj heq
    refine ⟨lg, ⟨5, 1⟩, lg', hopen, hentries, hclose, fun hall => ?_⟩
    have hcount := hall ⟨5, 1⟩ List.mem_cons_self
    exact absurd hcount (show (0 : Nat) ≠ 1 by decide)

end Mqlog
