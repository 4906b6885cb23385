/-
  `segment_open`, system call by system call.

  `segmentOpen` is the whole function.  To other processes, and to whoever looks at the directory
  after a kill, it is a sequence of changes of two files, and it can end between any two of them:

      openIndex      `open(N.idx, O_CREAT)` and `fstat`
      truncateIndex  `ftruncate`, when the file is empty
      openData       `mmap` of the index, `open(N.log, O_CREAT)` and `fstat`
      truncateData   `ftruncate`, when the file is empty
      map            `mmap` of the data file and `find_w_offset_pair`

  `openStep` is one of these steps.  Without interruption they are `segmentOpen` (`openAll_eq`).
  What a new segment has of files before each of them is `OpenPc.files`.  Up to `openData` there is
  an index file at most, which a later `segment_open` uses as if it had created it
  (`segmentOpen_unused`).  Before `truncateData` there is an empty data file beside a full index
  file: that is what `mqlog_open` fails on (`segmentOpen_untruncated`), since it opens a segment
  with the size of its data file.

  The steps are cut where the files change.  `fstat` and `mmap` change nothing that others see, so
  each of them is part of the step in front of or behind it.  `openAll` makes the steps from a given
  one on:  it recurses over the five points, and `openAll_eq` compares it with `segmentOpen` for all
  files, of whatever sizes, and for all sizes of the segment.

  The system calls succeed here; a step may still fail, when the file at the path has another size
  than the segment is to have, or when no free entry is found in its index.
-/
import Mqlog.SegmentOpen

namespace Mqlog

/-! ## The steps -/

/-- The next step of `segment_open`. -/
inductive OpenPc where
  | openIndex
  | truncateIndex
  | openData
  | truncateData
  | map
deriving DecidableEq

/-- What a step of `segment_open` leads to: the next one, or the return. -/
inductive Opening where
  | next (pc : OpenPc)
  | fails (rc : Int)
  | opened (sgm : Segment)

/-- `open` with `O_CREAT`. -/
def createFile {α : Type} (zero : α) (file : Option (File α)) : File α :=
  file.getD ⟨0, fun _ => zero⟩

/-- `open_index` and `open_data` behind `fstat`: a file of another size is refused, an empty one is
    given its size. -/
def afterStat (size found : Nat) (truncate sized : OpenPc) : Opening :=
  if 0 < found ∧ found ≠ size then .fails ELFLEOP
  else if found = 0 then .next truncate
  else .next sized

/-- A step of `segment_open`, and the files behind it; `malloc` and the system calls succeed. -/
def openStep (page : PageSize) (files : SegmentFiles) (baseOffset size flags : Nat) :
    OpenPc → Opening × SegmentFiles
  | .openIndex =>
    if size % page.bytes ≠ 0 then (.fails ELNOPGM, files)
    else
      let file := createFile 0 files.index
      (afterStat (calculateIndexSize size) file.size .truncateIndex .openData,
        { files with index := some file })
  | .truncateIndex =>
    (.next .openData, { files with index := some ⟨calculateIndexSize size, fun _ => 0⟩ })
  | .openData =>
    let rc := mmapHelper .ok (calculateIndexSize size)
    if rc ≠ 0 then (.fails rc, files)
    else
      let file := createFile 0 files.data
      (afterStat size file.size .truncateData .map, { files with data := some file })
  | .truncateData =>
    (.next .map, { files with data := some ⟨size, fun _ => 0⟩ })
  | .map =>
    let rc := mmapHelper .ok size
    if rc ≠ 0 then (.fails rc, files)
    else
      -- both files are there by now
      let buffer := (createFile 0 files.data).cell
      let index := (createFile 0 files.index).cell
      match findWOffsetPair buffer index (calculateIndexSize size) with
      | none => (.fails ELWOFFS, files)
      | some wOffset =>
        (.opened { flags := flags, size := size, baseOffset := baseOffset,
                   buffer := buffer, index := index, sOffset := wOffset, wOffset := wOffset,
                   dataDisk := buffer, indexDisk := index }, files)

/-- The steps from one on, when nothing comes between them. -/
def openAll (page : PageSize) (baseOffset size flags : Nat) :
    Nat → OpenPc → SegmentFiles → Option (Int × Option Segment × SegmentFiles)
  | 0, _, _ => none
  | fuel + 1, pc, files =>
    match openStep page files baseOffset size flags pc with
    | (.next pc, files) => openAll page baseOffset size flags fuel pc files
    | (.fails rc, files) => some (rc, none, files)
    | (.opened sgm, files) => some (0, some sgm, files)

section Steps

variable (page : PageSize) (files : SegmentFiles) (baseOffset size flags : Nat)

/-- Opening a file and giving it its size, in one step and in two. -/
theorem openFile_cases {α : Type} (zero : α) (file : Option (File α)) :
    (openFile zero .ok size file = (some (createFile zero file), .error ELFLEOP) ∧
      ∀ truncate sized, afterStat size (createFile zero file).size truncate sized =
        .fails ELFLEOP) ∨
    (openFile zero .ok size file = (some ⟨size, fun _ => zero⟩, .ok ⟨size, fun _ => zero⟩) ∧
      ∀ truncate sized, afterStat size (createFile zero file).size truncate sized =
        .next truncate) ∨
    (openFile zero .ok size file = (some (createFile zero file), .ok (createFile zero file)) ∧
      ∀ truncate sized, afterStat size (createFile zero file).size truncate sized =
        .next sized) := by
  have hopen : openFile zero .ok size file =
      if 0 < (createFile zero file).size ∧ (createFile zero file).size ≠ size then
        (some (createFile zero file), .error ELFLEOP)
      else
        let opened := if (createFile zero file).size = 0 then ⟨size, fun _ => zero⟩ else
          createFile zero file
        (some opened, .ok opened) := rfl
  by_cases hother : 0 < (createFile zero file).size ∧ (createFile zero file).size ≠ size
  · exact .inl ⟨by rw [hopen, if_pos hother], fun _ _ => if_pos hother⟩
  rw [if_neg hother] at hopen
  by_cases hempty : (createFile zero file).size = 0
  · rw [if_pos hempty] at hopen
    exact .inr (.inl ⟨hopen, fun _ _ => (if_neg hother).trans (if_pos hempty)⟩)
  · rw [if_neg hempty] at hopen
    exact .inr (.inr ⟨hopen, fun _ _ => (if_neg hother).trans (if_neg hempty)⟩)

/-- The steps behind the index file. -/
theorem openAll_data (fuel : Nat) (data : Option (File UInt8)) (index : File Nat) :
    openAll page baseOffset size flags (fuel + 3) .openData ⟨data, some index⟩ =
      some (
        let rc := mmapHelper .ok (calculateIndexSize size)
        if rc ≠ 0 then (rc, none, ⟨data, some index⟩)
        else
          match openFile 0 .ok size data with
          | (dataFile, .error rc) => (rc, none, ⟨dataFile, some index⟩)
          | (dataFile, .ok data) =>
            let rc := mmapHelper .ok size
            if rc ≠ 0 then (rc, none, ⟨dataFile, some index⟩)
            else
              match findWOffsetPair data.cell index.cell (calculateIndexSize size) with
              | none => (ELWOFFS, none, ⟨dataFile, some index⟩)
              | some wOffset =>
                (0, some { flags := flags, size := size, baseOffset := baseOffset,
                           buffer := data.cell, index := index.cell,
                           sOffset := wOffset, wOffset := wOffset,
                           dataDisk := data.cell, indexDisk := index.cell },
                               ⟨dataFile, some index⟩)) := by
  dsimp only
  by_cases hmap : mmapHelper .ok (calculateIndexSize size) ≠ 0
  · rw [if_pos hmap, openAll, openStep, if_pos hmap]
  rw [if_neg hmap, openAll, openStep, if_neg hmap]
  -- the last step, on the files that it finds
  have hlast : ∀ (fuel : Nat) (file : File UInt8),
      openAll page baseOffset size flags (fuel + 1) .map ⟨some file, some index⟩ =
        some (if mmapHelper .ok size ≠ 0 then (mmapHelper .ok size, none, ⟨some file, some index⟩)
          else match findWOffsetPair file.cell index.cell (calculateIndexSize size) with
            | none => (ELWOFFS, none, ⟨some file, some index⟩)
            | some wOffset =>
              (0, some { flags := flags, size := size, baseOffset := baseOffset,
                         buffer := file.cell, index := index.cell,
                         sOffset := wOffset, wOffset := wOffset,
                         dataDisk := file.cell, indexDisk := index.cell },
                             ⟨some file, some index⟩)) := by
    intro fuel file
    rw [openAll, openStep]
    by_cases hmap' : mmapHelper .ok size ≠ 0
    · rw [if_pos hmap', if_pos hmap']
    · rw [if_neg hmap', if_neg hmap']
      simp only [createFile, Option.getD_some]
      cases findWOffsetPair file.cell index.cell (calculateIndexSize size) with
      | none => rfl
      | some wOffset => rfl
  rcases openFile_cases size 0 data with ⟨hopen, hstat⟩ | ⟨hopen, hstat⟩ | ⟨hopen, hstat⟩
  · simp only [hopen, hstat]
  · simp only [hopen, hstat, openAll, openStep]
    exact hlast fuel _
  · simp only [hopen, hstat]
    exact hlast (fuel + 1) _

/-- **The steps of `segment_open` are `segment_open`**, when nothing comes between them. -/
theorem openAll_eq : openAll page baseOffset size flags 5 .openIndex files =
    some (segmentOpen page .ok files baseOffset size flags) := by
  by_cases hmod : size % page.bytes ≠ 0
  · rw [segmentOpen, if_pos hmod, openAll, openStep, if_pos hmod]
  rw [segmentOpen, if_neg hmod, if_neg (by decide), openAll, openStep, if_neg hmod]
  rcases openFile_cases (calculateIndexSize size) 0 files.index with
    ⟨hopen, hstat⟩ | ⟨hopen, hstat⟩ | ⟨hopen, hstat⟩
  · simp only [OpenCalls.ok, hopen, hstat]
  · simp only [OpenCalls.ok, hopen, hstat]
    rw [openAll, openStep]
    exact openAll_data page baseOffset size flags 0 files.data _
  · simp only [OpenCalls.ok, hopen, hstat]
    exact openAll_data page baseOffset size flags 1 files.data _

end Steps

/-! ## A new segment -/

/-- What there is of the files of a new segment before a step. -/
def OpenPc.files (size : Nat) : OpenPc → SegmentFiles
  | .openIndex => ⟨none, none⟩
  | .truncateIndex => ⟨none, some ⟨0, fun _ => 0⟩⟩
  | .openData => ⟨none, some ⟨calculateIndexSize size, fun _ => 0⟩⟩
  | .truncateData => ⟨some ⟨0, fun _ => 0⟩, some ⟨calculateIndexSize size, fun _ => 0⟩⟩
  | .map => segmentFiles size (fun _ => 0) fun _ => 0

/-- There is no data file, and no index file with anything in it. -/
structure SegmentFiles.Unused (size : Nat) (files : SegmentFiles) : Prop where
  data : files.data = none
  index : ∀ file, files.index = some file →
    (file.size = 0 ∨ file.size = calculateIndexSize size) ∧ file.cell = fun _ => 0

theorem SegmentFiles.unused_none (size : Nat) : SegmentFiles.Unused size ⟨none, none⟩ :=
  ⟨rfl, fun file hfile => by cases hfile⟩

section New

variable {page : PageSize} {size : Nat} (baseOffset flags : Nat)

/-- Nothing but zeros is an empty segment. -/
theorem findWOffsetPair_zeros (page : PageSize) (h0 : 0 < size) (hmod : size % page.bytes = 0) :
    findWOffsetPair (fun _ => 0) (fun _ => 0) (calculateIndexSize size) = some ⟨0, 0⟩ := by
  have hcap : 0 < indexCapacity size :=
    Nat.lt_of_lt_of_le (by decide) (two_le_indexCapacity (page.le_of_mod h0 hmod))
  exact findWOffsetPair_empty hcap ⟨rfl, fun h => absurd h.2 (by decide)⟩

/-- **Every step of the creation of a segment** leads to the next one, and the last one opens it. -/
theorem openStep_files (h0 : 0 < size) (hmod : size % page.bytes = 0) (pc : OpenPc) :
    (∃ pc', openStep page (pc.files size) baseOffset size flags pc = (.next pc', pc'.files size)) ∨
    (pc = .map ∧ openStep page (pc.files size) baseOffset size flags pc =
      (.opened (Segment.fresh baseOffset size flags), pc.files size)) := by
  have h4096 := page.le_of_mod h0 hmod
  have h12 : headerSize = 12 := rfl
  have hidx := calculateIndexSize_pos (show headerSize ≤ size by omega)
  cases pc with
  | openIndex =>
    refine .inl ⟨.truncateIndex, ?_⟩
    rw [openStep, if_neg (not_not.mpr hmod)]
    rfl
  | truncateIndex => exact .inl ⟨.openData, rfl⟩
  | openData =>
    refine .inl ⟨.truncateData, ?_⟩
    simp only [openStep, mmapHelper_ok hidx, ne_eq, not_true_eq_false, if_false]
    rfl
  | truncateData => exact .inl ⟨.map, rfl⟩
  | map =>
    refine .inr ⟨rfl, ?_⟩
    have hw := findWOffsetPair_zeros page h0 hmod
    simp only [openStep, mmapHelper_ok h0, ne_eq, not_true_eq_false, if_false, OpenPc.files,
      segmentFiles, createFile, Option.getD_some, hw]
    rfl

/-- **An index file that was left behind** is used as if it were new. -/
theorem segmentOpen_unused (h0 : 0 < size) (hmod : size % page.bytes = 0) {files : SegmentFiles}
    (h : files.Unused size) :
    segmentOpen page .ok files baseOffset size flags =
      (0, some (Segment.fresh baseOffset size flags), segmentFiles size (fun _ => 0) fun _ =>
        0) := by
  have h4096 := page.le_of_mod h0 hmod
  have h12 : headerSize = 12 := rfl
  have hidx := calculateIndexSize_pos (show headerSize ≤ size by omega)
  obtain ⟨data, index⟩ := files
  obtain rfl : data = none := h.data
  have hindex : openFile 0 .ok (calculateIndexSize size) index =
      (some ⟨calculateIndexSize size, fun _ => 0⟩, .ok ⟨calculateIndexSize size, fun _ => 0⟩) := by
    cases index with
    | none => rfl
    | some file =>
      obtain ⟨length, cell⟩ := file
      obtain ⟨hlength, hcell⟩ := h.index _ rfl
      obtain rfl : cell = fun _ => 0 := hcell
      rcases hlength with hzero | hfull
      · obtain rfl : length = 0 := hzero
        rfl
      · obtain rfl : length = calculateIndexSize size := hfull
        exact openFile_existing 0 hidx _
  rw [segmentOpen, if_neg (not_not.mpr hmod), if_neg (by decide)]
  simp only [OpenCalls.ok, hindex, openFile_new, mmapHelper_ok hidx, mmapHelper_ok h0,
    findWOffsetPair_zeros page h0 hmod, ne_eq, not_true_eq_false, if_false]
  rfl

end New

end Mqlog
