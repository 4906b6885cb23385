/-
  Opening a log, and the order in which the directory is listed.

  `readdir` promises no order, and `load_segments` does not sort.  There are three cases:

  1. the listing is in increasing order of base offset, and the index of every segment has a free
     entry: the log opens (`mqlogOpen_increasing`);
  2. the listing is in another order: `mbptree_append` refuses a segment, and `mqlog_open` returns
     `ELLDSGM` (`mqlogOpen_fails`);
  3. the index of some segment is used up: `segment_open` fails for it, and `mqlog_open` returns
     `ELLDSGM` in whatever order the segments are listed (`mqlogOpen_fails` again).

  So two listings of one directory are treated alike when both are in increasing order, or neither
  is, or when some index is used up (`open_order_iff`).

  What is compared is what the caller gets: the return code, and when it is `0` the index of the
  log, with one entry for each segment of the directory, as pairs of base offset and segment
  (`indexed`, `OpensAlike`).  Addresses are left out, since they depend on the order of the calls of
  `malloc`.

  The conditions are those on the files of a directory that a log leaves behind, `SegmentDir`: it
  says what is in the files, and not that their indexes have room.  A closed log leaves directories
  of all these kinds behind (`ClosedAs.segmentDir`): a segment of one page with 42 messages has used
  up its index, and then no listing opens; without such a segment the increasing listing opens and
  any other does not (`second_order_fails`).

  Two increasing listings need not be equal, since other names may stand between those of the
  segments; they have the same segments in the same order (`loadSegments_eq_of_increasing`).
-/
import Mqlog.LogReopen

namespace Mqlog

open Lib Lib.Mem Lib.Records

/-- The base offsets and segments in the index of a log, in its order. -/
def indexed (lg : MqLog) : Option (List (Nat × Segment)) := do
  let es ← chainEntries lg.index
  es.mapM fun d => (lg.segs.get d.value).map fun sgm => (d.key, sgm)

/-- Both listings give the same return code, and when it is `0` the same index, with one entry for
    each segment of the directory. -/
def OpensAlike (page : PageSize) (dir : Dir) (size flags : Nat) (names₁ names₂ : List (List Char)) :
    Prop :=
  ∃ rc lg₁ lg₂ dir₁ dir₂, mqlogOpen page .ok dir names₁ size flags = some (rc, lg₁, dir₁) ∧
    mqlogOpen page .ok dir names₂ size flags = some (rc, lg₂, dir₂) ∧
    (rc = 0 → ∃ lg₁' lg₂' parts, lg₁ = some lg₁' ∧ lg₂ = some lg₂' ∧ indexed lg₁' = some parts ∧
      indexed lg₂' = some parts ∧ (parts.map Prod.fst).Nodup ∧
      ∀ b, b ∈ parts.map Prod.fst ↔ (dir.data (dataFilename b)).isSome)

/-! ## One listing -/

theorem Loaded.indexed_eq {lg : MqLog} {es : List Data} {parts : List (Nat × Segment)}
    (h : Loaded lg es parts) : indexed lg = some parts := by
  rw [indexed, chainEntries_spec three_le_branchFactor h.tree]
  simp only [Option.bind_eq_bind, Option.bind_some]
  have hrefers := h.refers
  clear h
  induction hrefers with
  | nil => rfl
  | cons hr _ ih =>
    rw [List.mapM_cons, ih, hr.2, Option.map_some, hr.1]
    rfl

section Listing

variable {page : PageSize} {dir : Dir} {size flags : Nat} {names : List (List Char)}

/-- The index of some segment of the directory is used up. -/
def SomeUsedUp (dir : Dir) : Prop :=
  ∃ b, (dir.data (dataFilename b)).isSome ∧ UsedUp (dir.files b)

/-- The segments of a listing, which `mqlog_open` loads into an empty log. -/
theorem mqlogOpen_bases (flags : Nat) (hmod : size % page.bytes = 0) (hdir : SegmentDir page dir)
    (hnames : Lists names dir) :
    ∃ (lg₀ : MqLog) (bs : List Nat), Loaded lg₀ [] [] ∧ lg₀.dir = dir ∧
      (∀ b ∈ bs, b < 2 ^ 64 ∧ WellFormed page (dir.files b)) ∧ bs.Nodup ∧
      (∀ b, b ∈ bs ↔ (dir.data (dataFilename b)).isSome) ∧
      (Increasing names ↔ bs.Pairwise (· < ·)) ∧
      mqlogOpen page .ok dir names size flags =
        (loadSegments page lg₀ (bs.map dataFilename)).bind fun r =>
          if r.1 ≠ 0 then (mqlogClose page r.2).bind fun q => some (r.1, none, q.2.dir)
          else some (0, some r.2, r.2.dir) := by
  obtain ⟨lg₀, hinv, -, -, hdir₀, hopen⟩ := mqlogOpen_fresh flags dir hmod
  obtain ⟨bs, hfilter, hnodup, hmem⟩ := exists_bases hnames hdir.exists_base
  have hfiles : ∀ b ∈ bs, b < 2 ^ 64 ∧ WellFormed page (dir.files b) := fun b hb =>
    ⟨hdir.base_lt ((hmem b).mp hb), hdir.files b ((hmem b).mp hb)⟩
  refine ⟨lg₀, bs, hinv.loaded_nil, hdir₀, hfiles, hnodup, hmem,
    increasing_iff hfilter fun b hb => (hfiles b hb).1, ?_⟩
  rw [hopen, loadSegments_filter, hfilter]

/-- **A listing in increasing order** opens the log, when no index is used up. -/
theorem mqlogOpen_increasing (flags : Nat) (hmod : size % page.bytes = 0)
    (hdir : SegmentDir page dir) (hnames : Lists names dir) (hincreasing : Increasing names)
    (hfree : ¬ SomeUsedUp dir) :
    ∃ lg parts, mqlogOpen page .ok dir names size flags = some (0, some lg, lg.dir) ∧
      indexed lg = some parts ∧ (parts.map Prod.fst).Nodup ∧
      ∀ b, b ∈ parts.map Prod.fst ↔ (dir.data (dataFilename b)).isSome := by
  obtain ⟨lg₀, bs, hfresh, rfl, hfiles, hnodup, hmem, hiff, hopen⟩ :=
    mqlogOpen_bases flags hmod hdir hnames
  obtain ⟨lg, es, parts, hload, h, hkeys⟩ := Loaded.loadSegments_increasing hfresh
    (fun b hb => (hfiles b hb).2.opensAs (fun hused => hfree ⟨b, (hmem b).mp hb, hused⟩)
      (hfiles b hb).1
      lg₀.flags) (by simpa using hiff.mp hincreasing)
  have hparts : parts.map Prod.fst = bs := by
    rw [← Refers.key_eq h.refers, hkeys]
    rfl
  refine ⟨lg, parts, ?_, h.indexed_eq, by rwa [hparts], by rwa [hparts]⟩
  rw [hopen, hload, Option.bind_some, if_neg (not_not.mpr rfl)]

/-- **Any other listing** fails, and every listing does when an index is used up. -/
theorem mqlogOpen_fails (flags : Nat) (hmod : size % page.bytes = 0) (hdir : SegmentDir page dir)
    (hnames : Lists names dir) (hfails : Increasing names → SomeUsedUp dir) :
    ∃ dir', mqlogOpen page .ok dir names size flags = some (ELLDSGM, none, dir') := by
  obtain ⟨lg₀, bs, hfresh, rfl, hfiles, -, hmem, hiff, hopen⟩ :=
    mqlogOpen_bases flags hmod hdir hnames
  obtain ⟨lg, parts, hload, h⟩ := Loaded.loadSegments_fails hfresh hfiles fun hsorted => by
    obtain ⟨b, hb, hused⟩ := hfails (hiff.mpr (by simpa using hsorted))
    exact ⟨b, (hmem b).mpr hb, hused⟩
  obtain ⟨rc, lg', hclose⟩ := mqlogClose_returns page h
  have hcode : ELLDSGM ≠ 0 := by decide
  refine ⟨lg'.dir, ?_⟩
  rw [hopen, hload, Option.bind_some, if_pos hcode, hclose]
  rfl

/-- The log opens exactly when the listing is in increasing order and no index is used up. -/
theorem mqlogOpen_zero_iff (flags : Nat) (hmod : size % page.bytes = 0) (hdir : SegmentDir page dir)
    (hnames : Lists names dir) {rc : Int} {lg : Option MqLog} {dir' : Dir}
    (hopen : mqlogOpen page .ok dir names size flags = some (rc, lg, dir')) :
    rc = 0 ↔ Increasing names ∧ ¬ SomeUsedUp dir := by
  constructor
  · intro hrc
    by_contra hnot
    obtain ⟨dir'', hfails⟩ := mqlogOpen_fails flags hmod hdir hnames fun hincreasing => by
      by_contra hfree
      exact hnot ⟨hincreasing, hfree⟩
    rw [hfails] at hopen
    have hcode : ELLDSGM = 0 := (Prod.mk.inj (Option.some.inj hopen)).1.trans hrc
    exact absurd hcode (by decide)
  · rintro ⟨hincreasing, hfree⟩
    obtain ⟨lg', parts, hok, -⟩ := mqlogOpen_increasing flags hmod hdir hnames hincreasing hfree
    rw [hok] at hopen
    exact (Prod.mk.inj (Option.some.inj hopen)).1.symm

end Listing

/-! ## Two listings -/

/-- Two listings in increasing order are the same, apart from what is not a segment. -/
theorem loadSegments_eq_of_increasing {page : PageSize} {dir : Dir}
    {names₁ names₂ : List (List Char)} (hdir : SegmentDir page dir) (h₁ : Lists names₁ dir)
    (h₂ : Lists names₂ dir) (hinc₁ : Increasing names₁) (hinc₂ : Increasing names₂) (lg : MqLog) :
    loadSegments page lg names₁ = loadSegments page lg names₂ := by
  obtain ⟨bs₁, hfilter₁, -, hmem₁⟩ := exists_bases h₁ hdir.exists_base
  obtain ⟨bs₂, hfilter₂, -, hmem₂⟩ := exists_bases h₂ hdir.exists_base
  rw [increasing_iff hfilter₁ fun b hb => hdir.base_lt ((hmem₁ b).mp hb)] at hinc₁
  rw [increasing_iff hfilter₂ fun b hb => hdir.base_lt ((hmem₂ b).mp hb)] at hinc₂
  have heq := eq_of_increasing hinc₁ hinc₂ fun b => (hmem₁ b).trans (hmem₂ b).symm
  rw [loadSegments_filter names₁, loadSegments_filter names₂, hfilter₁, hfilter₂, heq]

theorem not_opensAlike {page : PageSize} {dir : Dir} {size flags : Nat}
    {names₁ names₂ : List (List Char)} (hmod : size % page.bytes = 0) (hdir : SegmentDir page dir)
    (h₁ : Lists names₁ dir) (h₂ : Lists names₂ dir) (hfree : ¬ SomeUsedUp dir)
    (hinc : ¬ (Increasing names₁ ↔ Increasing names₂)) :
    ¬ OpensAlike page dir size flags names₁ names₂ := by
  rintro ⟨rc, lg₁, lg₂, dir₁, dir₂, hopen₁, hopen₂, -⟩
  have hiff₁ := mqlogOpen_zero_iff flags hmod hdir h₁ hopen₁
  have hiff₂ := mqlogOpen_zero_iff flags hmod hdir h₂ hopen₂
  rw [and_iff_left hfree] at hiff₁ hiff₂
  exact hinc (hiff₁.symm.trans hiff₂)

/-- **Opening a log does not depend on the order of the listing** exactly as far as the listings are
    in increasing order, both or neither, or the index of some segment is used up (a size that is
    not a number of pages is refused anyway). -/
theorem open_order_iff {page : PageSize} {dir : Dir} {size flags : Nat}
    {names₁ names₂ : List (List Char)} (hdir : SegmentDir page dir) (h₁ : Lists names₁ dir)
    (h₂ : Lists names₂ dir) :
    OpensAlike page dir size flags names₁ names₂ ↔
      (size % page.bytes = 0 → SomeUsedUp dir ∨ (Increasing names₁ ↔ Increasing names₂)) := by
  constructor
  · intro halike hmod
    by_contra hnot
    rw [not_or] at hnot
    exact not_opensAlike hmod hdir h₁ h₂ hnot.1 hnot.2 halike
  · intro hcond
    by_cases hmod : size % page.bytes = 0
    · by_cases hloads : Increasing names₁ ∧ ¬ SomeUsedUp dir
      · -- the listings load the same segments
        obtain ⟨hinc₁, hfree⟩ := hloads
        have hinc₂ := ((hcond hmod).resolve_left hfree).mp hinc₁
        obtain ⟨lg, parts, hok, hindexed⟩ := mqlogOpen_increasing flags hmod hdir h₁ hinc₁ hfree
        obtain ⟨lg₀, -, -, -, -, hopen⟩ := mqlogOpen_fresh flags dir hmod
        have hok₂ : mqlogOpen page .ok dir names₂ size flags = some (0, some lg, lg.dir) := by
          rw [← hok, hopen, hopen, loadSegments_eq_of_increasing hdir h₁ h₂ hinc₁ hinc₂]
        exact ⟨0, some lg, some lg, lg.dir, lg.dir, hok, hok₂, fun _ =>
          ⟨lg, lg, parts, rfl, rfl, hindexed.1, hindexed.1, hindexed.2⟩⟩
      · -- both fail
        have hfails₁ : Increasing names₁ → SomeUsedUp dir := fun hinc => by
          by_contra hfree
          exact hloads ⟨hinc, hfree⟩
        have hfails₂ : Increasing names₂ → SomeUsedUp dir := fun hinc =>
          (hcond hmod).elim id fun hiff => hfails₁ (hiff.mpr hinc)
        obtain ⟨dir₁, hopen₁⟩ := mqlogOpen_fails flags hmod hdir h₁ hfails₁
        obtain ⟨dir₂, hopen₂⟩ := mqlogOpen_fails flags hmod hdir h₂ hfails₂
        exact ⟨ELLDSGM, none, none, dir₁, dir₂, hopen₁, hopen₂, fun hrc => absurd hrc (by decide)⟩
    · refine ⟨ELNOPGM, none, none, dir, dir, if_pos hmod, if_pos hmod,
        fun hrc => absurd hrc (by decide)⟩

/-! ## A closed log -/

/-- **Closing a log leaves well-formed files**, whether the index of a segment is used up or not. -/
theorem ClosedAs.segmentDir {page : PageSize} {dir : Dir} {lg : MqLog} {l : List Slot}
    (h : ClosedAs dir lg l) (hcount : (messages l).length < 2 ^ 64)
    (hmod : lg.size % 2 ^ 32 % page.bytes = 0) : SegmentDir page dir where
  names name _ hsome := by
    obtain ⟨b, hb, hname⟩ := h.only.data name hsome
    exact ⟨b, Nat.lt_of_le_of_lt (le_length_image hb) hcount, hname⟩
  files b hsome := by
    obtain ⟨k, hk, rfl⟩ := List.getElem_of_mem ((h.mem_starts b).mpr hsome)
    rw [getElem_starts]
    rw [length_starts] at hk
    obtain ⟨sgm, hsgm, hfiles⟩ := h.files k hk
    have hfits := hsgm.holds.fits
    have h12 : headerSize = 12 := rfl
    exact ⟨_, _, _, hfiles, by omega, hsgm.holds.small, by rw [hsgm.size_eq]; exact hmod⟩

/-- With an unused entry in every index, none of them is used up. -/
theorem ClosedAs.not_someUsedUp {dir : Dir} {lg : MqLog} {l : List Slot} (h : ClosedAs dir lg l)
    (hinv : LogInv lg l) (hkeeps : KeepsEntry lg) : ¬ SomeUsedUp dir := by
  rintro ⟨b, hsome, size, data, index, hused, hnone⟩
  obtain ⟨k, hk, rfl⟩ := List.getElem_of_mem ((h.mem_starts b).mpr hsome)
  rw [getElem_starts] at hused
  rw [length_starts] at hk
  obtain ⟨sgm, hsgm, hfiles⟩ := h.files k hk
  have hcap := hkeeps _ sgm hsgm.get
  rw [hsgm.holds.count] at hcap
  have hclosed := hsgm.holds.closedFiles_eq (Nat.le_of_lt hcap)
  have heq : segmentFiles sgm.size sgm.buffer sgm.index = segmentFiles size data index := by
    rw [← hclosed, ← hfiles]
    exact hused
  have hfound := hsgm.holds.findWOffsetPair_eq (.inl (hinv.nonempty _ (List.getElem_mem hk))) hcap
  cases heq
  rw [hnone] at hfound
  cases hfound

theorem Lists.perm {names names' : List (List Char)} {dir : Dir} (h : Lists names dir)
    (hperm : names.Perm names') : Lists names' dir :=
  ⟨(hperm.filter isLog).nodup_iff.mp h.1, fun name hlog => hperm.mem_iff.symm.trans (h.2 name hlog)⟩

/-- The directory of a closed log with two segments, which can be listed in either order. -/
theorem two_listings :
    ∃ lg₀ lg lgc, mqlogOpen page4096 .ok Dir.empty [] 4096 mqlogRddrt =
        some (0, some lg₀, Dir.empty) ∧
      writeAll page4096 lg₀ [bytes 1 0x61 (by decide), bytes 4072 0x62 (by decide)] =
        some ([1, 4072], lg) ∧
      mqlogClose page4096 lg = some (0, lgc) ∧ SegmentDir page4096 lgc.dir ∧ ¬ SomeUsedUp lgc.dir ∧
      Lists [dataFilename 0, dataFilename 1] lgc.dir ∧
      Lists [dataFilename 1, dataFilename 0] lgc.dir := by
  obtain ⟨lg₀, lg, lgc, l, hopen, hrun, hclose, hgrow, hclosed, hkeeps, hsize, hstarts, hcount⟩ :=
    closed_two
  have hlists := hclosed.lists hgrow.inv
  rw [hstarts] at hlists
  exact ⟨lg₀, lg, lgc, hopen, hrun, hclose,
    hclosed.segmentDir (by rw [hcount]; decide) (by rw [hsize]; decide),
      hclosed.not_someUsedUp hgrow.inv hkeeps, hlists, hlists.perm (.swap ..)⟩

theorem increasing_two : Increasing [dataFilename 0, dataFilename 1] ∧
    ¬ Increasing [dataFilename 1, dataFilename 0] := by
  have hfilter : [dataFilename 0, dataFilename 1].filter isLog = [0, 1].map dataFilename := rfl
  have hfilter' : [dataFilename 1, dataFilename 0].filter isLog = [1, 0].map dataFilename := rfl
  rw [increasing_iff hfilter (by decide), increasing_iff hfilter' (by decide)]
  decide

theorem open_order_iff_of_two :
    ∃ lg₀ lg lgc, mqlogOpen page4096 .ok Dir.empty [] 4096 mqlogRddrt =
        some (0, some lg₀, Dir.empty) ∧
      writeAll page4096 lg₀ [bytes 1 0x61 (by decide), bytes 4072 0x62 (by decide)] =
        some ([1, 4072], lg) ∧
      mqlogClose page4096 lg = some (0, lgc) ∧
      (OpensAlike page4096 lgc.dir 4096 mqlogRddrt [dataFilename 0, dataFilename 1]
          [dataFilename 1, dataFilename 0] ↔
        (4096 % page4096.bytes = 0 → SomeUsedUp lgc.dir ∨
          (Increasing [dataFilename 0, dataFilename 1] ↔
            Increasing [dataFilename 1, dataFilename 0]))) := by
  obtain ⟨lg₀, lg, lgc, hopen, hrun, hclose, hdir, -, h₁, h₂⟩ := two_listings
  exact ⟨lg₀, lg, lgc, hopen, hrun, hclose, open_order_iff hdir h₁ h₂⟩

/-- The first order opens the log, the second one does not. -/
theorem second_order_fails :
    ∃ lg₀ lg lgc, mqlogOpen page4096 .ok Dir.empty [] 4096 mqlogRddrt =
        some (0, some lg₀, Dir.empty) ∧
      writeAll page4096 lg₀ [bytes 1 0x61 (by decide), bytes 4072 0x62 (by decide)] =
        some ([1, 4072], lg) ∧
      mqlogClose page4096 lg = some (0, lgc) ∧
      (∃ lg', mqlogOpen page4096 .ok lgc.dir [dataFilename 0, dataFilename 1] 4096 mqlogRddrt =
        some (0, some lg', lg'.dir)) ∧
      (∃ dir', mqlogOpen page4096 .ok lgc.dir [dataFilename 1, dataFilename 0] 4096 mqlogRddrt =
        some (ELLDSGM, none, dir')) ∧
      ¬ OpensAlike page4096 lgc.dir 4096 mqlogRddrt [dataFilename 0, dataFilename 1]
        [dataFilename 1, dataFilename 0] := by
  obtain ⟨lg₀, lg, lgc, hopen, hrun, hclose, hdir, hfree, h₁, h₂⟩ := two_listings
  obtain ⟨hinc, hdisorder⟩ := increasing_two
  have hmod : 4096 % page4096.bytes = 0 := by decide
  obtain ⟨lg', parts, hok, -⟩ := mqlogOpen_increasing mqlogRddrt hmod hdir h₁ hinc hfree
  obtain ⟨dir', hfails⟩ := mqlogOpen_fails mqlogRddrt hmod hdir h₂ fun hinc₂ =>
    absurd hinc₂ hdisorder
  exact ⟨lg₀, lg, lgc, hopen, hrun, hclose, ⟨lg', hok⟩, ⟨dir', hfails⟩,
    not_opensAlike hmod hdir h₁ h₂ hfree fun hiff => hdisorder (hiff.mp hinc)⟩

end Mqlog
