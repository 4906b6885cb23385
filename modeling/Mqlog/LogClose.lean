/-
  Closing a log.

  `mqlog_close` walks over the index with the leaf iterator and closes the segment of every entry.
  The walk is a loop over the entries (`closeSegments_eq`): closing a segment does not touch the
  index, so the iterator stays good.  Two things follow.  No close faults when the entries are those
  of open segments (`mqlogClose_returns`); and the close of a log leaves the files of its segments,
  and nothing else, in the directory (`mqlogClose_closed`).

  The walk starts at the floor of `0`, which is the first entry when that has base offset `0`, and
  the exhausted iterator otherwise: a log whose first segment was not loaded is given back without
  closing anything.  `walk_start` has both cases; a log opened on an empty directory has its first
  segment at base offset `0` (`LogInv`), so that its walk starts at the first entry.

  The invariant of the loop is about the segments that are left: those behind the iterator are still
  open, at different addresses, and the files of those in front of it are in the directory
  (`closedDir`).  What an entry refers to does not depend on the segments of the other entries
  (`Refers.congr`), so the loop may free them one by one.

  A segment can be closed when what is not synced of it is not too large (`Closable`):
  `segment_close` syncs first and gives up when that returns something negative.  `mqlog_close`
  counts such calls and goes on with the next entry; the segment stays mapped, and the return code
  is `ELLGCLS`.
-/
import Mqlog.LogWrite
import Mqlog.MbptreeFree
import Mqlog.MbptreeWalk

namespace Mqlog

open Lib Lib.Mem Lib.Records

/-! ## The walk as a loop over the entries -/

/-- The loop of `mqlog_close` over the addresses that the iterator goes through. -/
def closeList (page : PageSize) : MqLog → List Nat → Nat → Option (Nat × MqLog)
  | lg, [], errors => some (errors, lg)
  | lg, addr :: addrs, errors => do
    let (rc, lg) ← closeSegment page lg addr
    closeList page lg addrs (if rc ≠ 0 then errors + 1 else errors)

/-- Closing an open segment returns. -/
theorem closeSegment_returns (page : PageSize) {lg : MqLog} {addr : Nat} {sgm : Segment}
    (hget : lg.segs.get addr = some sgm) :
    ∃ rc lg', closeSegment page lg addr = some (rc, lg') := by
  simp only [closeSegment, hget, Option.bind_eq_bind, Option.bind_some, Option.pure_def]
  split
  · exact ⟨_, _, rfl⟩
  · exact ⟨_, _, rfl⟩

/-- **The walk is a loop over the entries** in front of the iterator. -/
theorem closeSegments_eq {page : PageSize} {b : Nat} :
    ∀ (rest : List Data) {lg : MqLog} {it : LeafIterator} {fuel : Nat} (errors : Nat),
      Cursor lg.index.heap b it rest → rest.length < fuel →
      closeSegments page fuel lg it errors = closeList page lg (rest.map Data.value) errors
  | rest, lg, it, 0, errors, _, hfuel => absurd hfuel (Nat.not_lt_zero _)
  | [], lg, it, fuel + 1, errors, hc, _ => by
    rw [closeSegments, hc.valid_nil]
    rfl
  | d :: rest, lg, it, fuel + 1, errors, hc, hfuel => by
    obtain ⟨it', hnext, hc'⟩ := hc.next
    rw [closeSegments, hc.valid_cons, hc.key_value.2, List.map_cons, closeList]
    simp only [Option.bind_eq_bind, Option.bind_some, Bool.true_eq_false, if_false]
    cases hclose : closeSegment page lg d.value with
    | none => rfl
    | some r =>
      obtain ⟨⟨hindex, -⟩, -⟩ := closeSegment_cases hclose
      rw [Option.bind_some, Option.bind_some, hindex, hnext, Option.bind_some]
      exact closeSegments_eq rest _ (hindex ▸ hc') (Nat.lt_of_succ_lt_succ hfuel)

/-! ## What the index holds -/

/-- An entry of the index, and the base offset and segment it stands for. -/
def Refers (lg : MqLog) (d : Data) (part : Nat × Segment) : Prop :=
  d.key = part.1 ∧ lg.segs.get d.value = some part.2

/-- The index of the log holds these base offsets and segments, in this order. -/
def IndexHolds (lg : MqLog) (parts : List (Nat × Segment)) : Prop :=
  ∃ es, TreeHolds branchFactor lg.index es ∧ (es.map Data.value).Nodup ∧
    List.Forall₂ (Refers lg) es parts

/-- Open segments at different addresses lie below the next address, so there are fewer of them. -/
theorem length_lt_next {α : Type} {h : Heap α} {addrs : List Nat} (hnodup : addrs.Nodup)
    (hopen : ∀ a ∈ addrs, ∃ v, h.get a = some v) : addrs.length < h.next := by
  have hsub : (0 :: addrs) ⊆ List.range h.next := by
    intro a ha
    rw [List.mem_range]
    rcases List.mem_cons.mp ha with rfl | ha
    · exact h.pos
    · obtain ⟨v, hv⟩ := hopen a ha
      exact Heap.lt_next hv
  have hnot : 0 ∉ addrs := by
    intro hmem
    obtain ⟨v, hv⟩ := hopen 0 hmem
    exact Heap.ne_null hv rfl
  have hle := (List.nodup_cons.mpr ⟨hnot, hnodup⟩).length_le_of_subset hsub
  rw [List.length_cons, List.length_range] at hle
  exact hle

theorem refers_open {lg : MqLog} {es : List Data} {parts : List (Nat × Segment)}
    (h : List.Forall₂ (Refers lg) es parts) :
    ∀ a ∈ es.map Data.value, ∃ sgm, lg.segs.get a = some sgm := by
  induction h with
  | nil =>
    intro a ha
    exact absurd ha List.not_mem_nil
  | cons hr _ ih =>
    intro a ha
    rcases List.mem_cons.mp ha with rfl | ha
    · exact ⟨_, hr.2⟩
    · exact ih a ha

/-- The entries stand for the same segments in any state that has these at the same addresses. -/
theorem Refers.congr {lg lg' : MqLog} {es : List Data} {parts : List (Nat × Segment)}
    (h : List.Forall₂ (Refers lg) es parts)
    (hsegs : ∀ d ∈ es, lg'.segs.get d.value = lg.segs.get d.value) :
    List.Forall₂ (Refers lg') es parts := by
  induction h with
  | nil => exact .nil
  | cons hr _ ih =>
    exact .cons ⟨hr.1, (hsegs _ List.mem_cons_self).trans hr.2⟩
      (ih fun d hd => hsegs d (List.mem_cons_of_mem _ hd))

/-- **Where the walk starts**: at some entry, which is the first one when its key is `0`. -/
theorem walk_start {lg : MqLog} {es : List Data} (htree : TreeHolds branchFactor lg.index es) :
    ∃ it rest, mbptreeLeafFirst lg.index = some (0, some it, lg.index) ∧
      Cursor lg.index.heap branchFactor it rest ∧ rest <:+ es ∧
      ((∀ d ∈ es.head?, d.key = 0) → rest = es) := by
  obtain ⟨it, hfirst, hcursor⟩ := mbptreeLeafFirst_spec (by decide) htree
  refine ⟨it, _, hfirst, hcursor, ?_, fun hhead => fromFirst_eq_self.mpr hhead⟩
  rcases fromFirst_cases es with heq | heq
  · simp only [heq, List.suffix_refl]
  · simp only [heq, List.nil_suffix]

/-! ## Closing returns -/

theorem closeList_returns (page : PageSize) :
    ∀ (addrs : List Nat) (lg : MqLog) (errors : Nat), addrs.Nodup →
      (∀ a ∈ addrs, ∃ sgm, lg.segs.get a = some sgm) →
      ∃ errors' lg', closeList page lg addrs errors = some (errors', lg') ∧ lg'.index = lg.index
  | [], lg, errors, _, _ => ⟨errors, lg, rfl, rfl⟩
  | addr :: addrs, lg, errors, hnodup, hopen => by
    obtain ⟨hnot, hnodup⟩ := List.nodup_cons.mp hnodup
    obtain ⟨sgm, hget⟩ := hopen addr List.mem_cons_self
    obtain ⟨rc, lg₁, hclose⟩ := closeSegment_returns page hget
    obtain ⟨⟨hindex, -⟩, hsegs⟩ := closeSegment_cases hclose
    obtain ⟨errors', lg', hrest, hindex'⟩ := closeList_returns page addrs lg₁
      (if rc ≠ 0 then errors + 1 else errors) hnodup (fun a ha => by
        rw [hsegs a (fun heq => hnot (heq ▸ ha))]
        exact hopen a (List.mem_cons_of_mem _ ha))
    refine ⟨errors', lg', ?_, hindex'.trans hindex⟩
    rw [closeList, hclose]
    simp only [Option.bind_eq_bind, Option.bind_some]
    exact hrest

/-- **Closing a log returns** when its index refers to open segments. -/
theorem mqlogClose_returns (page : PageSize) {lg : MqLog} {parts : List (Nat × Segment)}
    (h : IndexHolds lg parts) : ∃ rc lg', mqlogClose page lg = some (rc, lg') := by
  obtain ⟨es, htree, hnodup, hrefers⟩ := h
  obtain ⟨it, rest, hfirst, hcursor, hsuffix, -⟩ := walk_start htree
  have hsub : (rest.map Data.value).Sublist (es.map Data.value) := hsuffix.sublist.map _
  have hopen : ∀ a ∈ rest.map Data.value, ∃ sgm, lg.segs.get a = some sgm := fun a ha =>
    refers_open hrefers a (hsub.subset ha)
  have hfuel := length_lt_next (hnodup.sublist hsub) hopen
  rw [List.length_map] at hfuel
  obtain ⟨errors, lg', hlist, hindex⟩ := closeList_returns page _ lg 0 (hnodup.sublist hsub) hopen
  obtain ⟨t', hfree⟩ := mbptreeFree_spec (by decide) htree
  refine ⟨if errors = 0 then 0 else ELLGCLS, { lg' with index := t' }, ?_⟩
  rw [mqlogClose, hfirst]
  simp only [Option.bind_eq_bind, Option.bind_some, ne_eq, not_true_eq_false, if_false,
    closeSegments_eq rest 0 hcursor hfuel, hlist, hindex, hfree, Option.pure_def]

/-! ## What closing leaves behind -/

/-- The segment can be closed: what is not synced is not too large. -/
structure Closable (sgm : Segment) : Prop where
  data_le : sgm.sOffset.data ≤ sgm.wOffset.data
  index_le : sgm.sOffset.index ≤ sgm.wOffset.index
  data_lt : sgm.wOffset.data < 2 ^ 31
  index_lt : sgm.wOffset.index < 2 ^ 31

/-- The directory with the files of closed segments. -/
def closedDir (dir : Dir) (parts : List (Nat × Segment)) : Dir :=
  parts.foldl (fun dir part => dir.put part.1 (closedFiles part.2)) dir

theorem closedDir_files_of_not_mem {b : Nat} : ∀ {parts : List (Nat × Segment)} {dir : Dir},
    b ∉ parts.map Prod.fst → (closedDir dir parts).files b = dir.files b
  | [], _, _ => rfl
  | part :: parts, dir, hnot => by
    rw [List.map_cons, List.mem_cons, not_or] at hnot
    rw [closedDir, List.foldl_cons]
    exact (closedDir_files_of_not_mem hnot.2).trans (Dir.files_put_of_ne dir _ hnot.1)

/-- Every closed segment has its files in the directory. -/
theorem closedDir_files : ∀ {parts : List (Nat × Segment)} {dir : Dir} {b : Nat} {sgm : Segment},
    (parts.map Prod.fst).Nodup → (b, sgm) ∈ parts → (closedDir dir parts).files b = closedFiles sgm
  | part :: parts, dir, b, sgm, hnodup, hmem => by
    rw [List.map_cons, List.nodup_cons] at hnodup
    rw [closedDir, List.foldl_cons]
    rcases List.mem_cons.mp hmem with rfl | hmem
    · exact (closedDir_files_of_not_mem hnodup.1).trans (Dir.files_put ..)
    · exact closedDir_files hnodup.2 hmem

/-- And the directory has no other files. -/
theorem closedDir_only {bases : List Nat} : ∀ {parts : List (Nat × Segment)} {dir : Dir},
    dir.Only bases → parts.map Prod.fst ⊆ bases → (closedDir dir parts).Only bases
  | [], _, honly, _ => honly
  | part :: parts, dir, honly, hsub => by
    rw [List.map_cons, List.cons_subset] at hsub
    rw [closedDir, List.foldl_cons]
    exact closedDir_only (honly.put hsub.1 _) hsub.2

theorem closeList_closed (page : PageSize) :
    ∀ {es : List Data} {parts : List (Nat × Segment)} (lg : MqLog) (errors : Nat),
      lg.calls = LogCalls.ok → (es.map Data.value).Nodup → List.Forall₂ (Refers lg) es parts →
      (∀ part ∈ parts, Closable part.2 ∧ part.2.baseOffset = part.1) →
      ∃ lg', closeList page lg (es.map Data.value) errors = some (errors, lg') ∧
        lg'.index = lg.index ∧ lg'.dir = closedDir lg.dir parts
  | [], _, lg, errors, _, _, .nil, _ => ⟨lg, rfl, rfl, rfl⟩
  | d :: es, part :: parts, lg, errors, hcalls, hnodup, .cons hr hrefers, hparts => by
    obtain ⟨hnot, hnodup⟩ := List.nodup_cons.mp hnodup
    obtain ⟨hclosable, hbase⟩ := hparts part List.mem_cons_self
    obtain ⟨sgm', hclose, hbase'⟩ := segmentClose_eq page hclosable.data_le hclosable.index_le
      hclosable.data_lt hclosable.index_lt
    have hstep := closeSegment_eq lg hcalls hr.2 hclose
    rw [hbase', hbase] at hstep
    have hothers : ∀ e ∈ es, (lg.segs.free d.value).get e.value = lg.segs.get e.value := by
      intro e he
      refine if_neg fun heq => hnot ?_
      rw [← heq]
      exact List.mem_map_of_mem he
    obtain ⟨lg', hrest, hindex, hdir⟩ := closeList_closed page
      { lg with segs := lg.segs.free d.value, dir := lg.dir.put part.1 (closedFiles part.2) } errors
      hcalls hnodup (Refers.congr hrefers hothers) fun p hp => hparts p (List.mem_cons_of_mem _ hp)
    refine ⟨lg', ?_, hindex, hdir⟩
    rw [List.map_cons, closeList, hstep]
    exact hrest

/-- **Closing a log** whose first base offset is `0` leaves the files of its segments behind. -/
theorem mqlogClose_closed (page : PageSize) {lg : MqLog} {es : List Data}
    {parts : List (Nat × Segment)} (htree : TreeHolds branchFactor lg.index es)
    (hnodup : (es.map Data.value).Nodup) (hrefers : List.Forall₂ (Refers lg) es parts)
    (hfirst : ∀ d ∈ es.head?, d.key = 0) (hcalls : lg.calls = LogCalls.ok)
    (hparts : ∀ part ∈ parts, Closable part.2 ∧ part.2.baseOffset = part.1) :
    ∃ lg', mqlogClose page lg = some (0, lg') ∧ lg'.dir = closedDir lg.dir parts := by
  obtain ⟨it, rest, hleaf, hcursor, -, hrest⟩ := walk_start htree
  obtain rfl := hrest hfirst
  have hfuel := length_lt_next hnodup (refers_open hrefers)
  rw [List.length_map] at hfuel
  obtain ⟨lg', hlist, hindex, hdir⟩ := closeList_closed page lg 0 hcalls hnodup hrefers hparts
  obtain ⟨t', hfree⟩ := mbptreeFree_spec (by decide) htree
  refine ⟨{ lg' with index := t' }, ?_, hdir⟩
  rw [mqlogClose, hleaf]
  simp only [Option.bind_eq_bind, Option.bind_some, ne_eq, not_true_eq_false, if_false,
    closeSegments_eq rest 0 hcursor hfuel, hlist, hindex, hfree, Option.pure_def, if_true]

end Mqlog
