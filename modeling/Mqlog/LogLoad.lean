/-
  Loading the segments of a directory.

  `load_segments` opens the `.log` files in the order in which `readdir` returns them and appends
  each to the index under the base offset in its name.  The index only takes increasing keys, so a
  listing in increasing order of base offset loads every segment, if every segment opens
  (`loadSegments_increasing`); it fails at the first name that is out of order, and at the first
  segment whose index is used up (`loadSegments_fails`).

    1. Directories.  `SegmentDir` is what the directory of a log looks like on disk: every `.log`
       file is that of a segment with a 64-bit base offset, and its two files fit together
       (`WellFormed`).  Nothing is said about the index being complete: `find_w_offset_pair` needs
       an entry that is zero, and a log whose last message took the last entry is closed without one
       (`UsedUp`).
    2. One segment.  A file is loaded when it opens and lies behind all that were loaded before
       (`loadSegment_next`), refused when it does not lie behind them (`loadSegment_refused`), and
       fails when it does not open (`loadSegment_fails`).
    3. All segments, by induction on the listing.  `Loaded lg es parts` says that the log has the
       segments `parts` in its index, as the entries `es`; each step adds one at the next address
       (`Loaded.snoc`).

  A segment opens as something (`OpensAs`), which is a relation between its files and the segment in
  memory.  What a directory is loaded as is therefore not said by the files alone; the two uses of
  this module, a log that was closed and one whose process was killed, say it in their own ways.

  The order matters because keys are compared, not because of the names: `strtoll` reads the number
  from the name of the file, and other files of the directory are passed over
  (`loadSegments_filter`).
-/
import Mqlog.LogClose
import Mqlog.LogLaw

namespace Mqlog

open Lib Lib.Mem Lib.Records

/-! ## Directories -/

/-- `readdir` returns the segments in increasing order of base offset. -/
def Increasing (names : List (List Char)) : Prop :=
  ((names.filter isLog).map strtoll).Pairwise (· < ·)

/-- The two files of a segment fit together. -/
def WellFormed (page : PageSize) (files : SegmentFiles) : Prop :=
  ∃ size data index, files = segmentFiles size data index ∧ 0 < size ∧ size < 2 ^ 32 ∧
    size % page.bytes = 0

/-- `find_w_offset_pair` finds no free entry: the index of the segment is used up. -/
def UsedUp (files : SegmentFiles) : Prop :=
  ∃ size data index, files = segmentFiles size data index ∧
    findWOffsetPair data index (calculateIndexSize size) = none

/-- The `.log` files of the directory belong to segments with well-formed files, at 64-bit base
    offsets. -/
structure SegmentDir (page : PageSize) (dir : Dir) : Prop where
  names : ∀ name, isLog name → (dir.data name).isSome → ∃ b, b < 2 ^ 64 ∧ name = dataFilename b
  files : ∀ b, (dir.data (dataFilename b)).isSome → WellFormed page (dir.files b)

namespace SegmentDir

variable {page : PageSize} {dir : Dir}

theorem exists_base (h : SegmentDir page dir) (name : List Char) (hlog : isLog name)
    (hsome : (dir.data name).isSome) : ∃ b, name = dataFilename b := by
  obtain ⟨b, -, hname⟩ := h.names name hlog hsome
  exact ⟨b, hname⟩

theorem base_lt (h : SegmentDir page dir) {b : Nat} (hsome : (dir.data (dataFilename b)).isSome) :
    b < 2 ^ 64 := by
  obtain ⟨b', hb', heq⟩ := h.names _ (isLog_dataFilename b) hsome
  rwa [dataFilename_injective heq]

end SegmentDir

/-- `load_segments` can open the segment at `b`, as `sgm`. -/
structure OpensAs (page : PageSize) (dir : Dir) (flags b : Nat) (sgm : Segment) : Prop where
  base_lt : b < 2 ^ 64
  opens : ∃ size, dir.fileSize (dataFilename b) = some size ∧
    segmentOpen page .ok (dir.files b) b (size % 2 ^ 32) flags = (0, some sgm, dir.files b)

/-- Well-formed files open, unless their index is used up. -/
theorem WellFormed.opensAs {page : PageSize} {dir : Dir} {b : Nat}
    (h : WellFormed page (dir.files b)) (hfree : ¬ UsedUp (dir.files b)) (hb : b < 2 ^ 64)
    (flags : Nat) :
    ∃ sgm, OpensAs page dir flags b sgm := by
  obtain ⟨size, data, index, hfiles, h0, hsmall, hmod⟩ := h
  obtain ⟨w, hw⟩ : ∃ w, findWOffsetPair data index (calculateIndexSize size) = some w :=
    Option.ne_none_iff_exists'.mp fun hnone => hfree ⟨size, data, index, hfiles, hnone⟩
  have hdata : dir.data (dataFilename b) = some ⟨size, data⟩ := congrArg SegmentFiles.data hfiles
  refine ⟨Segment.reopened b size flags data index w, hb, size, ?_, ?_⟩
  · rw [Dir.fileSize, hdata]
    rfl
  · rw [Nat.mod_eq_of_lt hsmall, hfiles]
    exact segmentOpen_files b flags h0 hmod hw

/-- The segments among the names are those of the directory. -/
theorem exists_bases {dir : Dir} {names : List (List Char)} (hnames : Lists names dir)
    (hdir : ∀ name, isLog name → (dir.data name).isSome → ∃ b, name = dataFilename b) :
    ∃ bs : List Nat, names.filter isLog = bs.map dataFilename ∧ bs.Nodup ∧
      ∀ b, b ∈ bs ↔ (dir.data (dataFilename b)).isSome := by
  have hlog : ∀ name ∈ names.filter isLog, dataFilename (printedOffset name) = name := by
    intro name hname
    obtain ⟨hmem, hlog⟩ := List.mem_filter.mp hname
    obtain ⟨b, rfl⟩ := hdir name hlog ((hnames.2 name hlog).mp hmem)
    rw [printedOffset_dataFilename]
  have hmap : ((names.filter isLog).map printedOffset).map dataFilename = names.filter isLog := by
    rw [List.map_map]
    exact (List.map_congr_left hlog).trans (List.map_id _)
  refine ⟨(names.filter isLog).map printedOffset, hmap.symm, ?_, fun b => ?_⟩
  · have hnodup := hnames.1
    rw [← hmap] at hnodup
    exact hnodup.of_map
  · rw [← hnames.2 _ (isLog_dataFilename b)]
    constructor
    · intro hb
      obtain ⟨name, hname, rfl⟩ := List.mem_map.mp hb
      rw [hlog name hname]
      exact (List.mem_filter.mp hname).1
    · intro hb
      have hmem : dataFilename b ∈ names.filter isLog :=
        List.mem_filter.mpr ⟨hb, isLog_dataFilename b⟩
      have himage := List.mem_map_of_mem (f := printedOffset) hmem
      rwa [printedOffset_dataFilename] at himage

/-- Names that are not those of segments are passed over. -/
theorem loadSegments_filter {page : PageSize} : ∀ (names : List (List Char)) (lg : MqLog),
    loadSegments page lg names = loadSegments page lg (names.filter isLog)
  | [], _ => rfl
  | name :: names, lg => by
    by_cases hlog : isLog name = true
    · rw [List.filter_cons_of_pos hlog, loadSegments, loadSegments, if_pos hlog, if_pos hlog]
      congr 1
      funext r
      show (if r.1 ≠ 0 then some (r.1, r.2) else loadSegments page r.2 names) = _
      rw [loadSegments_filter names r.2]
      rfl
    · rw [List.filter_cons_of_neg hlog, loadSegments, if_neg hlog]
      exact loadSegments_filter names lg

theorem increasing_iff {names : List (List Char)} {bs : List Nat}
    (h : names.filter isLog = bs.map dataFilename) (hbs : ∀ b ∈ bs, b < 2 ^ 64) :
    Increasing names ↔ bs.Pairwise (· < ·) := by
  have hmap : (bs.map dataFilename).map strtoll = bs := by
    rw [List.map_map]
    exact (List.map_congr_left fun b hb => strtoll_dataFilename (hbs b hb)).trans (List.map_id _)
  rw [Increasing, h, hmap]

/-- Where a listing is in increasing order and begins at 0, all base offsets are 64-bit numbers:
    from the name of another one 0 would be read as well. -/
theorem Increasing.bases_lt {names : List (List Char)} {bs : List Nat}
    (hincreasing : Increasing names) (h : names.filter isLog = bs.map dataFilename)
    (hfirst : bs ≠ [] → 0 ∈ bs) :
    ∀ b ∈ bs, b < 2 ^ 64 := by
  intro b hb
  by_contra hbig
  rw [Increasing, h, List.map_map] at hincreasing
  have hnodup : (bs.map (strtoll ∘ dataFilename)).Nodup := hincreasing.imp fun hlt =>
    Nat.ne_of_lt hlt
  have hzero : (strtoll ∘ dataFilename) b = (strtoll ∘ dataFilename) 0 := by
    rw [Function.comp_apply, Function.comp_apply, strtoll_dataFilename_eq, strtoll_dataFilename_eq,
      if_neg hbig, ite_self]
  have heq := List.inj_on_of_nodup_map hnodup hb (hfirst (List.ne_nil_of_mem hb)) hzero
  omega

/-- There is one increasing list of given numbers. -/
theorem eq_of_increasing {as bs : List Nat} (has : as.Pairwise (· < ·)) (hbs : bs.Pairwise (· < ·))
    (hmem : ∀ b, b ∈ as ↔ b ∈ bs) : as = bs := by
  have hnodup : ∀ {cs : List Nat}, cs.Pairwise (· < ·) → cs.Nodup := fun hcs =>
    hcs.imp fun hlt => Nat.ne_of_lt hlt
  refine List.Perm.eq_of_pairwise (fun a b _ _ hab hba => ?_) has hbs
    ((List.perm_ext_iff_of_nodup (hnodup has) (hnodup hbs)).mpr hmem)
  exact absurd (Nat.lt_trans hab hba) (Nat.lt_irrefl a)

/-- The data files of the directory are those of the segments at these base offsets. -/
def Dir.HasData (dir : Dir) (bases : List Nat) : Prop :=
  ∀ name, (dir.data name).isSome ↔ ∃ b ∈ bases, name = dataFilename b

theorem Dir.Only.hasData {dir : Dir} {bases : List Nat} (h : dir.Only bases)
    (hfiles : ∀ b ∈ bases, (dir.data (dataFilename b)).isSome) : dir.HasData bases := by
  intro name
  constructor
  · exact h.data name
  · rintro ⟨b, hb, rfl⟩
    exact hfiles b hb

/-- A directory with these segments, listed in increasing order. -/
theorem Dir.HasData.filter_eq {dir : Dir} {bases : List Nat} (h : dir.HasData bases)
    (hbases : bases.Pairwise (· < ·)) (hfirst : bases ≠ [] → 0 ∈ bases) {names : List (List Char)}
    (hnames : Lists names dir) (hincreasing : Increasing names) :
    names.filter isLog = bases.map dataFilename ∧ ∀ b ∈ bases, b < 2 ^ 64 := by
  obtain ⟨bs, hfilter, -, hmem⟩ := exists_bases hnames fun name _ hsome => by
    obtain ⟨b, -, hname⟩ := (h name).mp hsome
    exact ⟨b, hname⟩
  have hiff : ∀ b, b ∈ bs ↔ b ∈ bases := by
    intro b
    rw [hmem, h]
    constructor
    · rintro ⟨b', hb', heq⟩
      rwa [dataFilename_injective heq]
    · exact fun hb => ⟨b, hb, rfl⟩
  have hlt := hincreasing.bases_lt hfilter fun hne => by
    obtain ⟨b, hb⟩ := List.exists_mem_of_ne_nil bs hne
    exact (hiff 0).mpr (hfirst (List.ne_nil_of_mem ((hiff b).mp hb)))
  rw [increasing_iff hfilter hlt] at hincreasing
  obtain rfl := eq_of_increasing hincreasing hbases hiff
  exact ⟨hfilter, hlt⟩

/-- The segments of a directory can be listed. -/
theorem Dir.HasData.lists {dir : Dir} {bases : List Nat} (h : dir.HasData bases)
    (hbases : bases.Pairwise (· < ·)) : Lists (bases.map dataFilename) dir := by
  have hnodup : bases.Nodup := hbases.imp fun hlt => Nat.ne_of_lt hlt
  refine ⟨(List.filter_sublist).nodup (hnodup.map dataFilename_injective), fun name _ => ?_⟩
  rw [List.mem_map, h]
  exact exists_congr fun b => and_congr_right fun _ => eq_comm

/-! ## One segment -/

section Load

variable {page : PageSize} {lg : MqLog} {b : Nat} {sgm : Segment} {es : List Data}

theorem openSegment_opens {size flags : Nat} (hcalls : lg.calls = LogCalls.ok)
    (hopen : segmentOpen page .ok (lg.dir.files b) b size flags = (0, some sgm, lg.dir.files b)) :
    openSegment page lg b size flags =
      (0, some lg.segs.next, { lg with segs := lg.segs.alloc sgm }) := by
  rw [openSegment_eq hcalls hopen, Dir.put_files]

/-- **A segment behind all others** is loaded. -/
theorem loadSegment_next (hcalls : lg.calls = LogCalls.ok)
    (hopens : OpensAs page lg.dir lg.flags b sgm) (htree : TreeHolds branchFactor lg.index es)
    (hkey : ∀ d ∈ es, d.key < b) :
    ∃ index, loadSegment page lg (dataFilename b) =
        some (0, { lg with segs := lg.segs.alloc sgm, index := index }) ∧
      TreeHolds branchFactor index (es ++ [⟨b, lg.segs.next⟩]) := by
  obtain ⟨hb, size, hsize, hopen⟩ := hopens
  obtain ⟨size', flags', index, locked, segs, dir, calls⟩ := lg
  obtain rfl : calls = LogCalls.ok := hcalls
  have hsize' : dir.fileSize (dataFilename b) = some size := hsize
  have hload := openSegment_opens rfl hopen
  obtain ⟨index', happend, hindex, -⟩ :=
    mbptreeAppend_spec three_le_branchFactor htree b segs.next
  rw [sortedAppend, if_pos hkey] at happend hindex
  have happend' : mbptreeAppend index b segs.next = some (0, index') := happend
  refine ⟨index', ?_, hindex⟩
  simp only [loadSegment, LogCalls.ok, List.headD_nil, List.tail_nil, if_true, hsize',
    strtoll_dataFilename hb] at hload ⊢
  rw [hload]
  simp only [happend', Option.bind_eq_bind, Option.bind_some]
  rfl

/-- **A segment that is not behind all others** is refused, and the index stays as it is. -/
theorem loadSegment_refused (hcalls : lg.calls = LogCalls.ok)
    (hopens : OpensAs page lg.dir lg.flags b sgm) (htree : TreeHolds branchFactor lg.index es)
    (hkey : ¬ ∀ d ∈ es, d.key < b) :
    ∃ lg', loadSegment page lg (dataFilename b) = some (ELLDSGM, lg') ∧ lg'.index = lg.index ∧
      ∀ a, a < lg.segs.next → lg'.segs.get a = lg.segs.get a := by
  obtain ⟨hb, size, hsize, hopen⟩ := hopens
  obtain ⟨size', flags', index, locked, segs, dir, calls⟩ := lg
  obtain rfl : calls = LogCalls.ok := hcalls
  have hsize' : dir.fileSize (dataFilename b) = some size := hsize
  have hload := openSegment_opens rfl hopen
  obtain ⟨index', happend, -, hsame⟩ :=
    mbptreeAppend_spec three_le_branchFactor htree b segs.next
  rw [sortedAppend, if_neg hkey] at happend hsame
  rw [hsame rfl] at happend
  have hget : (MqLog.mk size' flags' index locked (segs.alloc sgm) dir .ok).segs.get segs.next =
      some sgm := Heap.get_alloc_self segs sgm
  obtain ⟨rc, lg', hclose⟩ := closeSegment_returns page hget
  obtain ⟨⟨hindex, -⟩, hsegs⟩ := closeSegment_cases hclose
  refine ⟨lg', ?_, hindex, fun a ha => ?_⟩
  · have happend' : mbptreeAppend index b segs.next = some (ELIDXNM, index) := happend
    have hpanic : ¬ ELIDXNM = ELIDXPC := by decide
    have hrefused : ELIDXNM ≠ 0 := by decide
    simp only [loadSegment, LogCalls.ok, List.headD_nil, List.tail_nil, if_true, hsize',
      strtoll_dataFilename hb] at hload hclose ⊢
    rw [hload]
    simp only [happend', Option.bind_eq_bind, Option.bind_some]
    rw [if_neg hpanic, if_pos hrefused, hclose]
    rfl
  · have hne : a ≠ segs.next := Nat.ne_of_lt ha
    rw [hsegs a hne]
    show (segs.alloc sgm).get a = segs.get a
    rw [Heap.get_alloc, if_neg hne]

/-- **A segment that does not open** is refused, and the log stays as it is. -/
theorem loadSegment_fails (hcalls : lg.calls = LogCalls.ok) (hb : b < 2 ^ 64) {size : Nat}
    {rc : Int} (hsize : lg.dir.fileSize (dataFilename b) = some size)
    (hopen : segmentOpen page .ok (lg.dir.files b) b (size % 2 ^ 32) lg.flags =
      (rc, none, lg.dir.files b)) :
    loadSegment page lg (dataFilename b) = some (ELLDSGM, lg) := by
  obtain ⟨size₀, flags, index, locked, segs, dir, calls⟩ := lg
  obtain rfl : calls = LogCalls.ok := hcalls
  have hsize' : dir.fileSize (dataFilename b) = some size := hsize
  have hopen' : segmentOpen page .ok (dir.files b) b (size % 2 ^ 32) flags =
    (rc, none, dir.files b) := hopen
  simp only [loadSegment, LogCalls.ok, List.headD_nil, List.tail_nil, if_true, hsize',
    strtoll_dataFilename hb, openSegment, hopen', Dir.put_files]

/-- One whose index is used up, for example. -/
theorem loadSegment_usedUp (hcalls : lg.calls = LogCalls.ok) (hb : b < 2 ^ 64)
    (hfiles : WellFormed page (lg.dir.files b)) (hused : UsedUp (lg.dir.files b)) :
    loadSegment page lg (dataFilename b) = some (ELLDSGM, lg) := by
  obtain ⟨size, data, index, hfiles, h0, hsmall, hmod⟩ := hfiles
  obtain ⟨size', data', index', hfiles', hw⟩ := hused
  obtain ⟨rfl, rfl, rfl⟩ : size = size' ∧ data = data' ∧ index = index' := by
    have heq := hfiles.symm.trans hfiles'
    cases heq
    exact ⟨rfl, rfl, rfl⟩
  have hdata : lg.dir.data (dataFilename b) = some ⟨size, data⟩ := congrArg SegmentFiles.data hfiles
  have hsize : lg.dir.fileSize (dataFilename b) = some size := by
    rw [Dir.fileSize, hdata]
    rfl
  have hopen := segmentOpen_full b lg.flags h0 hmod hw
  rw [← hfiles] at hopen
  exact loadSegment_fails hcalls hb hsize (by rw [Nat.mod_eq_of_lt hsmall]; exact hopen)

end Load

/-! ## All segments -/

/-- The log with the entries `es` in its index, for the segments `parts`. -/
structure Loaded (lg : MqLog) (es : List Data) (parts : List (Nat × Segment)) : Prop where
  calls : lg.calls = LogCalls.ok
  tree : TreeHolds branchFactor lg.index es
  nodup : (es.map Data.value).Nodup
  refers : List.Forall₂ (Refers lg) es parts

theorem Refers.key_eq {lg : MqLog} {es : List Data} {parts : List (Nat × Segment)}
    (h : List.Forall₂ (Refers lg) es parts) : es.map Data.key = parts.map Prod.fst := by
  induction h with
  | nil => rfl
  | cons hr _ ih => rw [List.map_cons, List.map_cons, hr.1, ih]

theorem keys_snoc (es : List Data) (b a : Nat) (bs : List Nat) :
    (es ++ [Data.mk b a]).map Data.key ++ bs = es.map Data.key ++ b :: bs := by
  rw [List.map_append, List.append_assoc]
  rfl

namespace Loaded

variable {page : PageSize} {lg : MqLog} {es : List Data} {parts : List (Nat × Segment)}

theorem value_lt (h : Loaded lg es parts) : ∀ d ∈ es, d.value < lg.segs.next := by
  intro d hd
  obtain ⟨sgm, hget⟩ := refers_open h.refers d.value (List.mem_map_of_mem hd)
  exact Heap.lt_next hget

/-- A log with one more segment, at the next address. -/
theorem snoc {lg' : MqLog} (h : Loaded lg es parts) {b : Nat} {sgm : Segment}
    (hcalls : lg'.calls = lg.calls)
    (htree : TreeHolds branchFactor lg'.index (es ++ [⟨b, lg.segs.next⟩]))
    (hsegs : ∀ a, a < lg.segs.next → lg'.segs.get a = lg.segs.get a)
    (hget : lg'.segs.get lg.segs.next = some sgm) :
    Loaded lg' (es ++ [⟨b, lg.segs.next⟩]) (parts ++ [(b, sgm)]) where
  calls := hcalls.trans h.calls
  tree := htree
  nodup := by
    rw [List.map_append, List.map_singleton, List.nodup_append]
    refine ⟨h.nodup, List.nodup_singleton _, ?_⟩
    rintro a ha c hc rfl
    obtain ⟨d, hd, rfl⟩ := List.mem_map.mp ha
    exact absurd (List.mem_singleton.mp hc) (Nat.ne_of_lt (h.value_lt d hd))
  refers := List.rel_append (Refers.congr h.refers fun d hd => hsegs _ (h.value_lt d hd))
    (.cons ⟨rfl, hget⟩ .nil)

/-- A log with one more segment. -/
theorem add (h : Loaded lg es parts) {index : Mbptree} {b : Nat} (sgm : Segment)
    (htree : TreeHolds branchFactor index (es ++ [⟨b, lg.segs.next⟩])) :
    Loaded { lg with segs := lg.segs.alloc sgm, index := index } (es ++ [⟨b, lg.segs.next⟩])
      (parts ++ [(b, sgm)]) :=
  h.snoc rfl htree (fun _ ha => if_neg (Nat.ne_of_lt ha)) (Heap.get_alloc_self ..)

/-- Files at base offsets that go on increasing. -/
theorem keys_lt {b : Nat} {bs : List Nat}
    (hsorted : (es.map Data.key ++ b :: bs).Pairwise (· < ·)) :
    ∀ d ∈ es, d.key < b := fun d hd =>
  (List.pairwise_append.mp hsorted).2.2 d.key (List.mem_map_of_mem hd) b List.mem_cons_self

/-- **A listing in increasing order** of files that open loads every segment. -/
theorem loadSegments_increasing :
    ∀ {bs : List Nat} {lg : MqLog} {es : List Data} {parts : List (Nat × Segment)},
      Loaded lg es parts → (∀ b ∈ bs, ∃ sgm, OpensAs page lg.dir lg.flags b sgm) →
      (es.map Data.key ++ bs).Pairwise (· < ·) →
      ∃ lg' es' parts', loadSegments page lg (bs.map dataFilename) = some (0, lg') ∧
        Loaded lg' es' parts' ∧ es'.map Data.key = es.map Data.key ++ bs
  | [], lg, es, parts, h, _, _ => ⟨lg, es, parts, rfl, h, (List.append_nil _).symm⟩
  | b :: bs, lg, es, parts, h, hopens, hsorted => by
    obtain ⟨sgm, hsgm⟩ := hopens b List.mem_cons_self
    obtain ⟨index, hload, htree⟩ := loadSegment_next h.calls hsgm h.tree (keys_lt hsorted)
    have hkeys := keys_snoc es b lg.segs.next bs
    obtain ⟨lg', es', parts', hrest, h', heq⟩ := loadSegments_increasing (h.add sgm htree)
      (fun c hc => hopens c (List.mem_cons_of_mem _ hc)) (by rwa [hkeys])
    refine ⟨lg', es', parts', ?_, h', heq.trans hkeys⟩
    rw [List.map_cons, loadSegments, if_pos (isLog_dataFilename b), hload]
    exact hrest

/-- **Any other listing** of well-formed files, and every listing with a used-up index among them,
    fails. -/
theorem loadSegments_fails :
    ∀ {bs : List Nat} {lg : MqLog} {es : List Data} {parts : List (Nat × Segment)},
      Loaded lg es parts → (∀ b ∈ bs, b < 2 ^ 64 ∧ WellFormed page (lg.dir.files b)) →
      ((es.map Data.key ++ bs).Pairwise (· < ·) → ∃ b ∈ bs, UsedUp (lg.dir.files b)) →
      ∃ lg' parts', loadSegments page lg (bs.map dataFilename) = some (ELLDSGM, lg') ∧
        IndexHolds lg' parts'
  | [], lg, es, parts, h, _, hfails => by
    obtain ⟨b, hb, -⟩ := hfails (by
      rw [List.append_nil, List.pairwise_map]
      exact h.tree.sorted)
    exact absurd hb List.not_mem_nil
  | b :: bs, lg, es, parts, h, hfiles, hfails => by
    obtain ⟨hb, hwell⟩ := hfiles b List.mem_cons_self
    by_cases hused : UsedUp (lg.dir.files b)
    · refine ⟨lg, parts, ?_, es, h.tree, h.nodup, h.refers⟩
      rw [List.map_cons, loadSegments, if_pos (isLog_dataFilename b),
        loadSegment_usedUp h.calls hb hwell hused]
      rfl
    obtain ⟨sgm, hopens⟩ := hwell.opensAs hused hb lg.flags
    by_cases hkey : ∀ d ∈ es, d.key < b
    · -- it fails further on
      obtain ⟨index, hload, htree⟩ := loadSegment_next h.calls hopens h.tree hkey
      have hkeys := keys_snoc es b lg.segs.next bs
      obtain ⟨lg', parts', hrest, h'⟩ := loadSegments_fails (h.add sgm htree)
        (fun c hc => hfiles c (List.mem_cons_of_mem _ hc)) fun hsorted => by
          obtain ⟨c, hc, hcused⟩ := hfails (by rwa [hkeys] at hsorted)
          rcases List.mem_cons.mp hc with rfl | hc
          · exact absurd hcused hused
          · exact ⟨c, hc, hcused⟩
      refine ⟨lg', parts', ?_, h'⟩
      rw [List.map_cons, loadSegments, if_pos (isLog_dataFilename b), hload]
      exact hrest
    · obtain ⟨lg', hload, hindex, hsegs⟩ := loadSegment_refused h.calls hopens h.tree hkey
      refine ⟨lg', parts, ?_, es, by rw [hindex]; exact h.tree, h.nodup,
        Refers.congr h.refers fun d hd => hsegs _ (h.value_lt d hd)⟩
      rw [List.map_cons, loadSegments, if_pos (isLog_dataFilename b), hload]
      rfl

end Loaded

/-- A log without segments. -/
theorem LogInv.loaded_nil {lg : MqLog} (h : LogInv lg []) : Loaded lg [] [] where
  calls := h.calls
  tree := h.tree
  nodup := List.nodup_nil
  refers := .nil

end Mqlog
