/-
  The life of a segment: calls of `segment_open`, `segment_write`, `segment_read`, `segment_sync`
  and `segment_close` in any order and with any outcomes of the system calls, on files that nothing
  else touches.

  Between two calls the segment is open, or there are its files (`SegmentState`).

  * An open segment is standing (`Standing`): it holds messages, or it was sealed before it got one
    and has been opened again since.
  * The files are new, also when a `segment_open` that failed has created them, or they are those
    that a standing segment left behind (`Left`).

  What one call does to the one and the other is `lifeInv_step`; so the write offset of a segment
  that has just been opened lies inside it, which is what the arithmetic of the calls relies on.

  A property of open segments need not be about what they hold.  `segmentLife_invariant` is the rule
  for it: what holds of a segment that has just been opened, with its write offset inside it, and is
  kept by the calls on an open segment, holds of every segment that calls can reach.  The rule
  carries `Standing` along, so that its user has to look neither at files nor at the outcomes of
  `segment_open`.

  There are two reasons why `Standing` is not simply `Holds`.

    1. The write offset may lie behind the end-of-segment frame or in front of it, when the segment
       was opened again.
    2. A segment that was sealed before it got a message has a header at position 0.  Opened again
       it counts that header as a message; whatever it is, it is marked, and no write will change
       it.

  A `segment_close` that fails has synced some of the segment and leaves it open
  (`segmentClose_none`).  A `segment_open` that fails may have created files or given them their
  sizes: they hold zeros (`Left.failed`).
-/
import Mqlog.Lib.Run
import Mqlog.SegmentClose

namespace Mqlog

open Lib (run)
open Lib.Mem Lib.Records

/-! ## Calls -/

/-- A call on an open segment; the outcomes of the `msync`s of a sync are arguments. -/
inductive SegmentOp where
  | write (buf : Buf)
  | read (relativeOffset : Nat)
  | sync (msyncs : Bool × Bool)

/-- One call: what it returns, and the segment afterwards. -/
def segmentOp (page : PageSize) (sgm : Segment) : SegmentOp → Int × Segment
  | .write buf => segmentWrite sgm buf
  | .read relativeOffset => ((segmentRead sgm relativeOffset).1, sgm)
  | .sync msyncs => segmentSync page msyncs sgm

/-- The segment after a list of calls. -/
def segmentOps (page : PageSize) (sgm : Segment) (ops : List SegmentOp) : Segment :=
  ops.foldl (fun sgm op => (segmentOp page sgm op).2) sgm

/-- A segment between two calls. -/
inductive SegmentState where
  | closed (files : SegmentFiles)
  | opened (sgm : Segment)

/-- A call, with the outcomes of its system calls. -/
inductive SegmentEvent where
  | segmentOpen (calls : OpenCalls) (baseOffset size flags : Nat)
  | op (op : SegmentOp)
  | segmentClose (msyncs : Bool × Bool)

/-- One call.  The size is a `uint32_t`. -/
def segmentLife (page : PageSize) : SegmentState → SegmentEvent → Option SegmentState
  | .closed files, .segmentOpen calls baseOffset size flags =>
    match segmentOpen page calls files baseOffset (size % 2 ^ 32) flags with
    | (_, some sgm, _) => some (.opened sgm)
    | (_, none, files) => some (.closed files)
  | .opened sgm, .op op => some (.opened (segmentOp page sgm op).2)
  | .opened sgm, .segmentClose msyncs =>
    match segmentClose page msyncs sgm with
    | (_, _, some files) => some (.closed files)
    -- the sync failed: the segment stays open
    | (_, sgm, none) => some (.opened sgm)
  | _, _ => none

/-- Before the first call there are no files. -/
def SegmentState.init : SegmentState := .closed ⟨none, none⟩

/-! ## What `segment_open` makes of files -/

/-- What `open_index` and `open_data` open: the file that was there, or a new one. -/
def OpenedAs {α : Type} (zero : α) (size : Nat) (file : Option (File α)) (f : File α) : Prop :=
  f.size = size ∧ (file = some f ∨ (∀ g ∈ file, g.size = 0) ∧ f.cell = fun _ => zero)

section OpenFile

variable {α : Type} {zero : α} {op : FileOp} {size : Nat} {file out : Option (File α)} {f : File α}

/-- The fallible calls behind a file that was opened. -/
theorem openFile_ok (h : openFile zero op size file = (out, .ok f)) :
    op = .ok ∧ OpenedAs zero size file f := by
  cases op with
  | pathTooLong => cases h
  | openFails => cases h
  | statFails => cases h
  | ok =>
    refine ⟨rfl, ?_⟩
    rw [openFile] at h
    dsimp only at h
    split at h
    · cases h
    · rename_i hsize
      have hf := Except.ok.inj (Prod.mk.inj h).2
      cases file with
      | none =>
        subst hf
        exact ⟨rfl, .inr ⟨fun g hg => absurd hg (Option.not_mem_none g), rfl⟩⟩
      | some g =>
        rw [Option.getD_some] at hf hsize
        by_cases h0 : g.size = 0
        · rw [if_pos h0] at hf
          subst hf
          exact ⟨rfl, .inr ⟨fun g' hg' => Option.some.inj hg' ▸ h0, rfl⟩⟩
        · rw [if_neg h0] at hf
          subst hf
          exact ⟨by omega, .inl rfl⟩

/-- A file that was not empty is opened as it is. -/
theorem OpenedAs.eq {g : File α} (h : OpenedAs zero size (some g) f) (hg : 0 < g.size) : f = g := by
  rcases h.2 with heq | ⟨hempty, -⟩
  · exact (Option.some.inj heq).symm
  · exact absurd (hempty g rfl) (Nat.ne_of_gt hg)

/-- Where there are only zeros, zeros are opened. -/
theorem OpenedAs.cell_eq (h : OpenedAs zero size file f)
    (hzero : ∀ g ∈ file, g.cell = fun _ => zero) :
    f.cell = fun _ => zero := by
  rcases h.2 with heq | ⟨-, heq⟩
  · exact hzero f heq
  · exact heq

/-- An empty file stays empty or becomes a new one. -/
theorem openFile_zero (h : ∀ f ∈ file, f.cell = fun _ => zero) :
    ∀ f ∈ (openFile zero op size file).1, f.cell = fun _ => zero := by
  have hfound : (file.getD ⟨0, fun _ => zero⟩).cell = fun _ => zero := by
    cases file with
    | none => rfl
    | some g => exact h g rfl
  intro f hf
  cases op with
  | pathTooLong => exact h f hf
  | openFails => exact h f hf
  | statFails =>
    obtain rfl := Option.some.inj hf
    exact hfound
  | ok =>
    rw [openFile] at hf
    dsimp only at hf
    split at hf
    · obtain rfl := Option.some.inj hf
      exact hfound
    · obtain rfl := Option.some.inj hf
      split
      · rfl
      · exact hfound

/-- A file that is not empty stays as it is. -/
theorem openFile_kept (h : 0 < f.size) : (openFile zero op size (some f)).1 = some f := by
  cases op with
  | pathTooLong => rfl
  | openFails => rfl
  | statFails => rfl
  | ok =>
    rw [openFile]
    dsimp only
    split
    · rfl
    · rw [Option.getD_some, if_neg (Nat.ne_of_gt h)]

end OpenFile

theorem mmapHelper_eq_zero {op : MapOp} {size : Nat} (h : mmapHelper op size = 0) :
    op = .ok ∧ 0 < size := by
  cases op with
  | mmapNull => cases h
  | madviseFails => cases h
  | ok =>
    refine ⟨rfl, Nat.pos_of_ne_zero ?_⟩
    rintro rfl
    cases h

section Open

variable {page : PageSize} {calls : OpenCalls} {files files' : SegmentFiles}
  {baseOffset size flags : Nat} {sgm : Segment} {rc : Int}

/-- **A segment that could be opened**: no call failed, and the write offset was found. -/
theorem segmentOpen_some
    (hopen : segmentOpen page calls files baseOffset size flags = (rc, some sgm, files')) :
    calls = .ok ∧ 0 < size ∧ size % page.bytes = 0 ∧
      ∃ data index w, OpenedAs 0 size files.data data ∧
        OpenedAs 0 (calculateIndexSize size) files.index index ∧
        findWOffsetPair data.cell index.cell (calculateIndexSize size) = some w ∧
        sgm = Segment.reopened baseOffset size flags data.cell index.cell w := by
  unfold segmentOpen at hopen
  split at hopen
  · cases hopen
  rename_i hmod
  split at hopen
  · cases hopen
  rename_i hmalloc
  dsimp only at hopen
  split at hopen
  · cases hopen
  rename_i hindex
  split at hopen
  · cases hopen
  rename_i hindexMap
  split at hopen
  · cases hopen
  rename_i hdata
  split at hopen
  · cases hopen
  rename_i hdataMap
  split at hopen
  · cases hopen
  · rename_i w hw
    cases hopen
    obtain ⟨hop, hindex⟩ := openFile_ok hindex
    obtain ⟨hop', hdata⟩ := openFile_ok hdata
    obtain ⟨hmap, -⟩ := mmapHelper_eq_zero (not_not.mp hindexMap)
    obtain ⟨hmap', h0⟩ := mmapHelper_eq_zero (not_not.mp hdataMap)
    refine ⟨?_, h0, not_not.mp hmod, _, _, w, hdata, hindex, hw, rfl⟩
    obtain ⟨malloc, indexFile, indexMap, dataFile, dataMap⟩ := calls
    dsimp only at hmalloc hop hop' hmap hmap'
    subst hop hop' hmap hmap'
    rw [Bool.not_eq_false] at hmalloc
    rw [hmalloc]
    rfl

/-- The files after `segment_open`, whatever it returns. -/
theorem segmentOpen_snd (page : PageSize) (calls : OpenCalls) (files : SegmentFiles)
    (baseOffset size flags : Nat) :
    let files' := (segmentOpen page calls files baseOffset size flags).2.2
    (files'.data = files.data ∨ files'.data = (openFile 0 calls.dataFile size files.data).1) ∧
      (files'.index = files.index ∨
        files'.index = (openFile 0 calls.indexFile (calculateIndexSize size) files.index).1) := by
  intro files'
  rw [show files' = (segmentOpen page calls files baseOffset size flags).2.2 from rfl]
  unfold segmentOpen
  split
  · exact ⟨.inl rfl, .inl rfl⟩
  split
  · exact ⟨.inl rfl, .inl rfl⟩
  dsimp only
  split
  · rename_i hindex
    exact ⟨.inl rfl, .inr (congrArg Prod.fst hindex).symm⟩
  rename_i hindex
  have hindex' := (congrArg Prod.fst hindex).symm
  split
  · exact ⟨.inl rfl, .inr hindex'⟩
  split
  · rename_i hdata
    exact ⟨.inr (congrArg Prod.fst hdata).symm, .inr hindex'⟩
  rename_i hdata
  have hdata' := (congrArg Prod.fst hdata).symm
  split
  · exact ⟨.inr hdata', .inr hindex'⟩
  split
  · exact ⟨.inr hdata', .inr hindex'⟩
  · exact ⟨.inr hdata', .inr hindex'⟩

end Open

/-! ## Open segments -/

/-- A segment that calls can reach: it holds messages, and is written up to the last of them or up
    to the end-of-segment frame; or it was opened from the files of one that was sealed before it
    got a message. -/
inductive Standing (sgm : Segment) : Prop where
  | messages {ps : List Buf} {tail : List UInt8} (holds : Holds sgm ps tail)
      (written : sgm.wOffset.data = (image frame ps).length ∨
        sgm.wOffset.data = (image frame ps).length + tail.length)
  | sealed (marked : markedEos sgm = true) (files : SealedFiles sgm.size (closedFiles sgm))
      (inside : sgm.wOffset.data ≤ sgm.size)

namespace Standing

variable {page : PageSize} {sgm : Segment}

theorem inside (h : Standing sgm) : sgm.wOffset.data ≤ sgm.size := by
  cases h with
  | messages holds _ => exact holds.written_le_size
  | sealed _ _ inside => exact inside

theorem size_pos (h : Standing sgm) : headerSize ≤ sgm.size := by
  cases h with
  | messages holds _ => exact Nat.le_trans (Nat.le_add_left ..) holds.fits
  | sealed marked _ inside =>
    refine Nat.le_trans (Nat.le_of_not_lt fun hlt => ?_) inside
    rw [markedEos, if_pos hlt] at marked
    cases marked

theorem write (h : Standing sgm) (buf : Buf) : Standing (segmentWrite sgm buf).2 := by
  cases h with
  | sealed marked files inside =>
    rw [segmentWrite_marked marked]
    exact .sealed marked files inside
  | @messages ps tail holds written =>
    have hsealed : Holds (sgm.holding ps eosFrame) ps eosFrame :=
      Holds.holding holds.fits holds.small (.inr rfl)
    have hbehind : ∀ hw : sgm.wOffset.data = (image frame ps).length,
        Standing (segmentWrite sgm buf).2 := by
      intro hw
      rcases holds.segmentWrite_behind hw buf with heq | heq | ⟨hfits, heq⟩
      · rw [heq]
        exact .messages holds written
      · rw [heq]
        exact .messages hsealed (.inr rfl)
      · rw [heq]
        exact .messages (holds.holding_snoc hfits) (.inr rfl)
    rcases written with hw | hw
    · exact hbehind hw
    · rcases holds.tail_eq with rfl | rfl
      · exact hbehind hw
      · rw [segmentWrite_marked (holds.markedEos_sealed hw)]
        exact .messages holds (.inr hw)

theorem sync (h : Standing sgm) (msyncs : Bool × Bool) :
    Standing (segmentSync page msyncs sgm).2 := by
  obtain ⟨-, hsize, -, hbuffer, hindex, hw⟩ := segmentSync_frame page sgm msyncs
  cases h with
  | messages holds written =>
    rw [← hw] at written
    exact .messages (holds.segmentSync page msyncs) written
  | sealed marked files inside =>
    refine .sealed ?_ ?_ ?_
    · rw [markedEos, hw, hbuffer]
      exact marked
    · rw [closedFiles, hsize, hbuffer, hindex]
      exact files
    · rw [hw, hsize]
      exact inside

/-- The step lemma for an open segment. -/
theorem op (h : Standing sgm) : ∀ op : SegmentOp, Standing (segmentOp page sgm op).2
  | .write buf => h.write buf
  | .read _ => h
  | .sync msyncs => h.sync msyncs

/-- **Opening the files it leaves behind** gives a standing segment again. -/
theorem reopened (h : Standing sgm) {calls : OpenCalls} {files' : SegmentFiles}
    {baseOffset size flags : Nat} {sgm' : Segment} {rc : Int}
    (hopen : segmentOpen page calls (closedFiles sgm) baseOffset size flags =
      (rc, some sgm', files')) :
    Standing sgm' := by
  obtain ⟨rfl, h0, hmod, data, index, w, hdata, -, -, heq⟩ := segmentOpen_some hopen
  have hsize' : sgm'.size = size := by rw [heq, Segment.reopened]
  clear heq
  -- nothing but the size of the segment fits its files
  have hpos := h.size_pos
  have h12 : headerSize = 12 := rfl
  have hsize : size = sgm.size := by
    have hfile := hdata.eq (show 0 < sgm.size by omega)
    exact hdata.1.symm.trans (congrArg File.size hfile)
  subst hsize
  have hempty : SealedFiles sgm.size (closedFiles sgm) → Standing sgm' := by
    intro hfiles
    obtain ⟨sgm₁, heq, hmark, hfiles', -, -, hw⟩ :=
      segmentOpen_sealed baseOffset flags h0 hmod hfiles
    rw [heq] at hopen
    cases hopen
    rw [← hsize'] at hfiles'
    exact .sealed hmark hfiles' (by rw [hw, hsize']; exact hpos)
  cases h with
  | sealed marked files inside => exact hempty files
  | @messages ps tail holds written =>
    rcases Nat.lt_or_ge ps.length (indexCapacity sgm.size) with hcap | hfull
    · rcases holds.tail_eq with rfl | rfl
      · rw [holds.segmentOpen_closed (.inr rfl) hcap h0 hmod] at hopen
        cases hopen
        exact .messages (holds.reopened baseOffset flags) (.inl rfl)
      · cases ps with
        | nil =>
          refine hempty (sealedFiles_closed sgm (fun p _ => ?_) fun k _ => ?_)
          · exact congrFun holds.buffer p
          · exact congrFun holds.index k
        | cons p ps =>
          rw [holds.segmentOpen_closed (.inl (List.cons_ne_nil p ps)) hcap h0 hmod] at hopen
          cases hopen
          exact .messages (holds.reopened baseOffset flags) (.inl rfl)
    · rw [holds.segmentOpen_closed_full hfull h0 hmod] at hopen
      cases hopen

end Standing

/-! ## Files in between -/

/-- The files of a segment that is not open: new ones, with nothing in them, or those that a
    standing segment left behind. -/
inductive Left : SegmentFiles → Prop where
  | new {files : SegmentFiles} (data : ∀ f ∈ files.data, f.cell = fun _ => 0)
      (index : ∀ f ∈ files.index, f.cell = fun _ => 0) : Left files
  | closed {sgm : Segment} (h : Standing sgm) : Left (closedFiles sgm)

section Left

variable {page : PageSize} {calls : OpenCalls} {files files' : SegmentFiles}
  {baseOffset size flags : Nat} {sgm sgm' : Segment} {rc : Int} {msyncs : Bool × Bool}

theorem left_init : Left ⟨none, none⟩ :=
  .new (fun f hf => absurd hf (Option.not_mem_none f)) fun f hf => absurd hf (Option.not_mem_none f)

/-- A segment that was opened from files a segment left behind stands. -/
theorem Left.opened (h : Left files) (hsmall : size < 2 ^ 32)
    (hopen : segmentOpen page calls files baseOffset size flags = (rc, some sgm, files')) :
    Standing sgm := by
  cases h with
  | closed h => exact h.reopened hopen
  | new hdata hindex =>
    obtain ⟨-, h0, hmod, data, index, w, hdata', hindex', hw, rfl⟩ := segmentOpen_some hopen
    have h4096 := page.le_of_mod h0 hmod
    have hcap := two_le_indexCapacity h4096
    rw [hdata'.cell_eq hdata, hindex'.cell_eq hindex] at hw ⊢
    rw [findWOffsetPair_empty (Nat.lt_of_lt_of_le (by decide) hcap)
      ⟨rfl, fun hhdr => absurd hhdr.2 (by decide)⟩] at hw
    obtain rfl := Option.some.inj hw
    exact .messages (holds_fresh baseOffset flags (Nat.le_trans (by decide) h4096) hsmall)
      (.inl rfl)

/-- A `segment_open` that fails may have created files. -/
theorem Left.failed (h : Left files) :
    Left (segmentOpen page calls files baseOffset size flags).2.2 := by
  obtain ⟨hdata', hindex'⟩ := segmentOpen_snd page calls files baseOffset size flags
  cases h with
  | new hdata hindex =>
    refine .new ?_ ?_
    · rcases hdata' with heq | heq
      · rw [heq]
        exact hdata
      · rw [heq]
        exact openFile_zero hdata
    · rcases hindex' with heq | heq
      · rw [heq]
        exact hindex
      · rw [heq]
        exact openFile_zero hindex
  | @closed sgm h =>
    have h12 := h.size_pos
    have hkept : (segmentOpen page calls (closedFiles sgm) baseOffset size flags).2.2 =
        closedFiles sgm := by
      have hdata : (openFile 0 calls.dataFile size (closedFiles sgm).data).1 =
          (closedFiles sgm).data :=
        openFile_kept (Nat.lt_of_lt_of_le (by decide) h12)
      have hindex : (openFile 0 calls.indexFile (calculateIndexSize size)
          (closedFiles sgm).index).1 = (closedFiles sgm).index :=
        openFile_kept (calculateIndexSize_pos h12)
      rw [hdata, or_self] at hdata'
      rw [hindex, or_self] at hindex'
      exact congrArg₂ SegmentFiles.mk hdata' hindex'
    rw [hkept]
    exact .closed h

/-- What a close that succeeds leaves in the files. -/
theorem segmentClose_some (hclose : segmentClose page msyncs sgm = (rc, sgm', some files)) :
    files = closedFiles sgm := by
  obtain ⟨-, hsize, -, hbuffer, hindex, -⟩ := segmentSync_frame page sgm msyncs
  rw [segmentClose] at hclose
  dsimp only at hclose
  split at hclose
  · cases hclose
  · cases hclose
    rw [hsize, hbuffer, hindex]
    rfl

/-- A close that fails has synced, and the segment stays open. -/
theorem segmentClose_none (hclose : segmentClose page msyncs sgm = (rc, sgm', none)) :
    sgm' = (segmentSync page msyncs sgm).2 := by
  rw [segmentClose] at hclose
  dsimp only at hclose
  split at hclose
  · cases hclose
    rfl
  · cases hclose

end Left

/-! ## Runs -/

/-- What holds between two calls, for a property `I` of open segments. -/
def LifeInv (I : Segment → Prop) : SegmentState → Prop
  | .closed files => Left files
  | .opened sgm => Standing sgm ∧ I sgm

section Life

variable {page : PageSize} {I : Segment → Prop}

/-- The step lemma. -/
theorem lifeInv_step
    (hopened : ∀ {calls files files' baseOffset size flags sgm rc}, size < 2 ^ 32 →
      segmentOpen page calls files baseOffset size flags = (rc, some sgm, files') →
      sgm.wOffset.data ≤ size → I sgm)
    (hop : ∀ sgm op, I sgm → I (segmentOp page sgm op).2) (s : SegmentState) (e : SegmentEvent)
    (s' : SegmentState) (hinv : LifeInv I s) (hstep : segmentLife page s e = some s') :
    LifeInv I s' := by
  cases s with
  | closed files =>
    cases e with
    | op op => cases hstep
    | segmentClose msyncs => cases hstep
    | segmentOpen calls baseOffset size flags =>
      have hsmall : size % 2 ^ 32 < 2 ^ 32 := Nat.mod_lt _ (by decide)
      have hfailed : Left (segmentOpen page calls files baseOffset (size % 2 ^ 32) flags).2.2 :=
        Left.failed hinv
      rw [segmentLife] at hstep
      split at hstep
      · rename_i rc sgm files' heq
        have hstanding := Left.opened hinv hsmall heq
        obtain ⟨-, -, -, data, index, w, -, -, -, hsgm⟩ := segmentOpen_some heq
        have hsize : sgm.size = size % 2 ^ 32 := by rw [hsgm, Segment.reopened]
        obtain rfl := Option.some.inj hstep
        exact ⟨hstanding, hopened hsmall heq (hsize ▸ hstanding.inside)⟩
      · rename_i rc files' heq
        rw [heq] at hfailed
        obtain rfl := Option.some.inj hstep
        exact hfailed
  | opened sgm =>
    obtain ⟨hstanding, hI⟩ := hinv
    cases e with
    | segmentOpen calls baseOffset size flags => cases hstep
    | op op =>
      obtain rfl := Option.some.inj hstep
      exact ⟨hstanding.op op, hop sgm op hI⟩
    | segmentClose msyncs =>
      rw [segmentLife] at hstep
      split at hstep
      · rename_i rc sgm' files heq
        obtain rfl := Option.some.inj hstep
        rw [segmentClose_some heq]
        exact Left.closed hstanding
      · rename_i rc sgm' heq
        obtain rfl := Option.some.inj hstep
        rw [segmentClose_none heq]
        exact ⟨hstanding.sync msyncs, hop sgm (.sync msyncs) hI⟩

/-- **The rule for the life of a segment**: what holds of a segment that has just been opened, with
    its write offset inside it, and is preserved by the calls on it holds of every segment that
    calls can reach. -/
theorem segmentLife_invariant
    (hopened : ∀ {calls files files' baseOffset size flags sgm rc}, size < 2 ^ 32 →
      segmentOpen page calls files baseOffset size flags = (rc, some sgm, files') →
      sgm.wOffset.data ≤ size → I sgm)
    (hop : ∀ sgm op, I sgm → I (segmentOp page sgm op).2) {es : List SegmentEvent} {sgm : Segment}
    (hrun : run (segmentLife page) .init es = some (.opened sgm)) : I sgm := by
  have hinit : LifeInv I .init := left_init
  exact (Lib.run_invariant_all (lifeInv_step hopened hop) hinit hrun).2

end Life

end Mqlog
