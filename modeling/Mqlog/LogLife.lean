/-
  The life of a log: any number of sessions on one directory.

  A program opens a directory that is empty at first, writes to the log, reads from it and syncs it,
  closes it, opens the directory again, and so on (`LogLife`).  All calls succeed, and at any time
  the log has what was written since the directory was empty, in order, whatever session it was
  written in (`log_keeps`).

  Between two calls the directory is new, or holds the files of a closed log, or belongs to a log
  that is open.  These are the cases of the invariant `LogLifeInv`, and each call takes one of them
  to another, by the lemmas about that call:

      new      -- mqlog_open -->   open        (`LogLifeInv.opens`)
      closed   -- mqlog_open -->   open        (`LogLifeInv.opens`)
      open     -- mqlog_write -->  open        (`LogLifeInv.write`)
      open     -- mqlog_read, mqlog_sync --> open   (`LogLifeInv.readSync`)
      open     -- mqlog_close -->  closed      (`LogLifeInv.closes`)

  `LogLifeInv.step` says that a call goes through and keeps the invariant, `LogLifeInv.run` says the
  same of a whole life.

  What a program has to take care of is `Careful`, and it is asked at each call, of the state before
  it:

    * the listing of the directory is an increasing one when the log is opened;
    * a message fits into a segment, and its entry into the index file (`RoomForEntry`): the code
      does not check that there is room in the index;
    * a log that is closed has room for one more entry in the index of every segment, as
      `find_w_offset_pair` needs an entry that is zero to find the end of the messages.

  Without the second condition the store of an index entry lands behind the end of the index file,
  in the middle of a session and without an error, and without the third one the directory does not
  open.
-/
import Mqlog.LogReopen

namespace Mqlog

open Lib (run Along)
open Lib.Mem Lib.Records

/-! ## Sessions on one directory -/

inductive LifeCall where
  /-- `mqlog_open` on the directory, whose listing is `names`. -/
  | opens (names : List (List Char)) (flags : Nat)
  /-- A call on the log that is open. -/
  | call (c : MqlogCall)
  /-- `mqlog_close`. -/
  | closes

/-- The directory, the log when it is open, the messages written since the directory was empty, and
    how many of them were there when the log was opened or last synced. -/
structure LogLife where
  dir : Dir
  lg : Option MqLog
  written : List Buf
  committed : Nat

/-- An empty directory. -/
def LogLife.new : LogLife := ⟨Dir.empty, none, [], 0⟩

/-- One call; `none` when an assertion fails, when the log is not opened or closed without an error,
    or when there is no log to call or one is open already. -/
def lifeStep (page : PageSize) (size : Nat) (s : LogLife) (c : LifeCall) : Option LogLife :=
  match s.lg, c with
  | none, .opens names flags => do
    let (rc, lg, dir) ← mqlogOpen page .ok s.dir names size flags
    if rc = 0 then pure ⟨dir, lg, s.written, s.written.length⟩ else none
  | some lg, .call c => do
    let t ← logSessionStep page ⟨lg, s.written, s.committed⟩ c
    pure ⟨t.lg.dir, some t.lg, t.written, t.committed⟩
  | some lg, .closes => do
    let (rc, lg) ← mqlogClose page lg
    if rc = 0 then pure ⟨lg.dir, none, s.written, s.committed⟩ else none
  | _, _ => none

/-- The messages that the calls write. -/
def writes (calls : List LifeCall) : List Buf :=
  calls.filterMap fun c =>
    match c with
    | .call (.write buf) => some buf
    | _ => none

/-- A write of the payload stores no entry behind the end of an index file: the last segment does
    not take the payload, or has room for its entry.  (A new segment has.) -/
def RoomForEntry (lg : MqLog) (buf : Buf) : Prop :=
  ∀ addr sgm, mbptreeLastValue lg.index = some (some addr) → lg.segs.get addr = some sgm →
    (segmentWrite sgm buf).1 ≠ ELEOS → sgm.wOffset.index < indexCapacity sgm.size

/-- A call that the program may make: the directory is listed in increasing order, a message fits
    into a segment and has room for its entry, a log that shows committed messages only leaves no
    unsynced segment behind, and no index file of a log that is closed is used up. -/
def Careful (page : PageSize) (size : Nat) (s : LogLife) : LifeCall → Prop
  | .opens names _ => s.lg = none ∧ Lists names s.dir ∧ Increasing names
  | .call c => ∃ lg, s.lg = some lg ∧
      -- the model has memory behind an index file, the machine has not
      (∀ buf, c = .write buf →
        1 ≤ buf.1.length ∧ buf.1.length + 2 * headerSize ≤ size ∧ RoomForEntry lg buf) ∧
      (lg.flags &&& mqlogRdcmt = mqlogRdcmt → SyncedBehind page ⟨lg, s.written, s.committed⟩ c)
  | .closes => ∃ lg, s.lg = some lg ∧ KeepsEntry lg

/-- What holds between two calls. -/
inductive LogLifeInv (size : Nat) : LogLife → Prop where
  | new : LogLifeInv size .new
  | closed {dir : Dir} {written : List Buf} {committed : Nat} (lg : MqLog) (l : List Slot) :
      Growing lg l → lg.size = size → messages l = written → ClosedAs dir lg l → KeepsEntry lg →
      LogLifeInv size ⟨dir, none, written, committed⟩
  | opened {dir : Dir} {lg : MqLog} {written : List Buf} {committed : Nat} (l : List Slot) :
      Growing lg l → lg.size = size → messages l = written → committed ≤ written.length →
      (lg.flags &&& mqlogRdcmt = mqlogRdcmt → Committed l committed) →
      LogLifeInv size ⟨dir, some lg, written, committed⟩

/-! ## The step lemma -/

section Step

variable {page : PageSize} {size : Nat} {s : LogLife}

/-- `mqlog_open`. -/
theorem LogLifeInv.opens (h : LogLifeInv size s) (hmod : size % page.bytes = 0)
    {names : List (List Char)} {flags : Nat} (hcareful : Careful page size s (.opens names flags)) :
    ∃ dir lg, lifeStep page size s (.opens names flags) =
        some ⟨dir, some lg, s.written, s.written.length⟩ ∧
      LogLifeInv size ⟨dir, some lg, s.written, s.written.length⟩ ∧ lg.flags = flags := by
  obtain ⟨hclosed, hnames, hincreasing⟩ := hcareful
  cases h with
  | new =>
    obtain ⟨lg, hopen, hgrow, hsize, hflags⟩ := mqlogOpen_empty flags hmod hnames
    refine ⟨Dir.empty, lg, ?_, .opened [] hgrow hsize rfl (Nat.le_refl _) fun _ => committed_nil,
      hflags⟩
    simp only [lifeStep, LogLife.new, hopen, Option.bind_eq_bind, Option.bind_some, if_true,
      Option.pure_def]
  | @closed dir written committed lg l hgrow hsize hmsgs hfiles hkeeps =>
    obtain ⟨lg', l', hopen, hgrow', hrel, hsize', hflags'⟩ :=
      hfiles.reopen hgrow hkeeps (by rwa [hsize]) flags hnames hincreasing
    rw [hsize] at hopen
    refine ⟨dir, lg', ?_, .opened l' hgrow' (hsize'.trans hsize)
      ((Reopens.messages_eq hrel).trans hmsgs) (Nat.le_refl _) fun _ => ?_, hflags'⟩
    · simp only [lifeStep, hopen, Option.bind_eq_bind, Option.bind_some, if_true, Option.pure_def]
    · exact committed_of_synced (Reopens.all_synced hrel) _
  | opened => exact absurd hclosed (Option.some_ne_none _)

/-- `mqlog_close`. -/
theorem LogLifeInv.closes (h : LogLifeInv size s) (hsmall : size < 2 ^ 31)
    (hcareful : Careful page size s .closes) :
    ∃ dir, lifeStep page size s .closes = some ⟨dir, none, s.written, s.committed⟩ ∧
      LogLifeInv size ⟨dir, none, s.written, s.committed⟩ := by
  obtain ⟨lg, hopen, hkeeps⟩ := hcareful
  cases h with
  | new => cases hopen
  | closed => cases hopen
  | @opened dir lg' written committed l hgrow hsize hmsgs hle hcommitted =>
    cases hopen
    obtain ⟨lgc, hclose, hfiles⟩ := hgrow.close page (by
      rw [hsize]
      exact Nat.lt_of_le_of_lt (Nat.mod_le ..) hsmall)
    refine ⟨lgc.dir, ?_, .closed lg l hgrow hsize hmsgs hfiles hkeeps⟩
    simp only [lifeStep, hclose, Option.bind_eq_bind, Option.bind_some, if_true, Option.pure_def]

/-- A call on the log that is open. -/
theorem lifeStep_call {lg : MqLog} (hopen : s.lg = some lg) {c : MqlogCall} {t : LogSession}
    (hstep : logSessionStep page ⟨lg, s.written, s.committed⟩ c = some t) :
    lifeStep page size s (.call c) = some ⟨t.lg.dir, some t.lg, t.written, t.committed⟩ := by
  simp only [lifeStep, hopen, hstep, Option.bind_eq_bind, Option.bind_some, Option.pure_def]

/-- `mqlog_write`. -/
theorem LogLifeInv.write (h : LogLifeInv size s) (hmod : size % page.bytes = 0)
    (hsmall : size < 2 ^ 31) {buf : Buf} (hcareful : Careful page size s (.call (.write buf))) :
    ∃ lg, lifeStep page size s (.call (.write buf)) =
        some ⟨lg.dir, some lg, s.written ++ [buf], s.committed⟩ ∧
      LogLifeInv size ⟨lg.dir, some lg, s.written ++ [buf], s.committed⟩ := by
  obtain ⟨lg, hopen, hfit, hbehind⟩ := hcareful
  obtain ⟨hpos, hfits, -⟩ := hfit buf rfl
  cases h with
  | new => cases hopen
  | closed => cases hopen
  | @opened dir lg' written committed l hgrow hsize hmsgs hle hcommitted =>
    cases hopen
    have hsize32 : lg.size % 2 ^ 32 = size := by
      rw [hsize]
      exact Nat.mod_eq_of_lt (by omega)
    rw [← hsize32] at hmod hfits
    have hne : buf.1.length ≠ 0 := Nat.ne_of_gt hpos
    have hsize0 : 0 < lg.size % 2 ^ 32 := by omega
    obtain ⟨lg', l', hwrite, hgrow', hgrows, hsize', hflags'⟩ := hgrow.write hsize0 hmod hne hfits
    have hlength : (0 : Int) < (buf.1.length : Nat) := Int.natCast_pos.mpr hpos
    have hstep : logSessionStep page ⟨lg, written, committed⟩ (.write buf) =
        some ⟨lg', written ++ [buf], committed⟩ := by
      rw [logSessionStep_write hwrite, if_pos hlength]
    refine ⟨lg', lifeStep_call (s := ⟨dir, some lg, written, committed⟩) rfl hstep,
      .opened l' hgrow' (hsize'.trans hsize) ?_ ?_ fun hflags => ?_⟩
    · rw [hgrows.messages_eq, hmsgs]
    · rw [List.length_append]
      exact Nat.le_add_right_of_le hle
    · rw [hflags'] at hflags
      refine (hcommitted hflags).grows (by rwa [hmsgs]) hgrows fun l₀ t heq hfull => ?_
      subst heq
      obtain ⟨key, hroll⟩ := hgrow.rollsOver hsize0 hmod hne hfits hfull
      exact hgrow.inv.synced_of_lastSynced (hbehind hflags key hroll)

/-- `mqlog_read` and `mqlog_sync`. -/
theorem LogLifeInv.readSync (h : LogLifeInv size s) {c : MqlogCall} (hc : ∀ buf, c ≠ .write buf)
    (hcareful : Careful page size s (.call c)) :
    ∃ s', lifeStep page size s (.call c) = some s' ∧ LogLifeInv size s' ∧
      s'.written = s.written := by
  obtain ⟨lg, hopen, -, -⟩ := hcareful
  cases h with
  | new => cases hopen
  | closed => cases hopen
  | @opened dir lg' written committed l hgrow hsize hmsgs hle hcommitted =>
    cases hopen
    cases c with
    | write buf => exact absurd rfl (hc buf)
    | read offset =>
      obtain ⟨rc, fr, hread⟩ := hgrow.inv.read_same offset
      have hstep : logSessionStep page ⟨lg, written, committed⟩ (.read offset) =
          some ⟨lg, written, committed⟩ := logSessionStep_read hread
      exact ⟨_, lifeStep_call rfl hstep, .opened l hgrow hsize hmsgs hle hcommitted, rfl⟩
    | sync =>
      obtain ⟨rc, lg', l', hsync, hgrow', hsyncs, hsize', hflags'⟩ := hgrow.sync page
      have hstep : logSessionStep page ⟨lg, written, committed⟩ .sync =
          some ⟨lg', written, if 0 ≤ rc then written.length else committed⟩ :=
            logSessionStep_sync hsync
      refine ⟨_, lifeStep_call rfl hstep, .opened l' hgrow' (hsize'.trans hsize)
        (hsyncs.messages_eq.trans hmsgs) ?_ fun hflags => ?_, rfl⟩
      · split
        · exact Nat.le_refl _
        · exact hle
      · rw [hflags'] at hflags
        exact (hcommitted hflags).syncs hsyncs _

/-- **The step lemma**: every call goes through, and keeps the invariant. -/
theorem LogLifeInv.step (h : LogLifeInv size s) (hmod : size % page.bytes = 0)
    (hsmall : size < 2 ^ 31) {c : LifeCall} (hcareful : Careful page size s c) :
    ∃ s', lifeStep page size s c = some s' ∧ LogLifeInv size s' ∧
      s'.written = s.written ++ writes [c] := by
  cases c with
  | opens names flags =>
    obtain ⟨dir, lg, hstep, hinv, -⟩ := h.opens hmod hcareful
    exact ⟨_, hstep, hinv, (List.append_nil _).symm⟩
  | closes =>
    obtain ⟨dir, hstep, hinv⟩ := h.closes hsmall hcareful
    exact ⟨_, hstep, hinv, (List.append_nil _).symm⟩
  | call c =>
    cases c with
    | write buf =>
      obtain ⟨lg, hstep, hinv⟩ := h.write hmod hsmall hcareful
      exact ⟨_, hstep, hinv, rfl⟩
    | read offset =>
      obtain ⟨s', hstep, hinv, hwritten⟩ := h.readSync (fun buf hc => by cases hc) hcareful
      exact ⟨s', hstep, hinv, hwritten.trans (List.append_nil _).symm⟩
    | sync =>
      obtain ⟨s', hstep, hinv, hwritten⟩ := h.readSync (fun buf hc => by cases hc) hcareful
      exact ⟨s', hstep, hinv, hwritten.trans (List.append_nil _).symm⟩

end Step

/-! ## The run -/

/-- **Any number of calls** go through, and write what they are given. -/
theorem LogLifeInv.run {page : PageSize} {size : Nat} (hmod : size % page.bytes = 0)
    (hsmall : size < 2 ^ 31) :
    ∀ (calls : List LifeCall) {s : LogLife}, LogLifeInv size s →
      Along (lifeStep page size) (Careful page size) s calls →
      ∃ t, Lib.run (lifeStep page size) s calls = some t ∧ LogLifeInv size t ∧
        t.written = s.written ++ writes calls
  | [], s, h, _ => ⟨s, rfl, h, (List.append_nil _).symm⟩
  | c :: calls, s, h, hcareful => by
    obtain ⟨s', hstep, h', hwritten⟩ := h.step hmod hsmall hcareful.1
    obtain ⟨t, hrun, ht, hwritten'⟩ := LogLifeInv.run hmod hsmall calls h' (hcareful.2 s' hstep)
    refine ⟨t, Lib.run_cons_eq_some.mpr ⟨s', hstep, hrun⟩, ht, ?_⟩
    have hcons : writes ([c] ++ calls) = writes [c] ++ writes calls := List.filterMap_append
    rw [hwritten', hwritten, List.append_assoc, ← hcons, List.singleton_append]

/-- What the log has between two calls. -/
theorem LogLifeInv.reads {size : Nat} {s : LogLife} (h : LogLifeInv size s) {lg : MqLog}
    (hopen : s.lg = some lg) :
    (∀ k buf, s.written[k]? = some buf → (lg.flags &&& mqlogRdcmt ≠ mqlogRdcmt ∨ k < s.committed) →
      LogReads lg k buf) ∧ ∀ k, s.written.length ≤ k → LogNotThere lg k := by
  cases h with
  | new => cases hopen
  | closed => cases hopen
  | opened l hgrow hsize hmsgs hle hcommitted =>
    cases hopen
    subst hmsgs
    refine ⟨fun k buf hbuf hvisible => hgrow.inv.reads hbuf ?_, fun k hk => hgrow.inv.unwritten hk⟩
    rcases hvisible with hdirty | hk
    · exact visible_rddrt hdirty
    · exact fun hflags => (hcommitted hflags).visible hk hflags

end Mqlog
