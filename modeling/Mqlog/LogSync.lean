/-
  What `mqlog_sync` commits.

  `mqlog_sync` syncs the last segment only.  A log opened with `MQLOG_RDCMT` shows the messages
  below the synced position of their segment, so a message is committed for good when its segment is
  synced while it is the last one, and never when a write starts a new segment before that.

  A run of calls is followed with what it has written and how much of that was there at the last
  sync (`LogSession`).  When no write leaves an unsynced segment behind (`SyncedBehind`), all
  segments but the last are synced to the end (`Committed.old`), and so everything written before a
  sync is read after it (`sync_commits`).

    1. `Syncs l l'`: what a sync does to the slots of a log.  The synced position of the last one
       moves up to its write offset, or nothing changes, as `segment_sync` may return an error
       without any call failing (the size it returns is an `int`).
    2. `Committed l m`: the first `m` messages are synced.  It is an invariant of the runs:

           sync    commits everything (`Committed.syncs`)
           write   into the last segment: keeps it; into a new one: keeps it when the old
                   last segment is synced to the end (`Committed.grows`)
           read    changes nothing

    3. `LogSessionInv` is `Committed` with the log that it is about; it has two cases, as a log may
       have been blocked by a message that was too large.  `LogSessionInv.step` is the step lemma.

  The condition is one on the state before each write, and it can be computed (`writesSynced`).
  Where it fails the first sync after the new segment leaves a gap: `rollover_never_committed` has
  two messages in two segments, of which the second one is committed and the first one is not, and
  no later call of `mqlog_sync` will commit it.
-/
import Mqlog.LogIndex
import Mqlog.LogRefused

namespace Mqlog

open Lib Lib.Mem Lib.Records

/-! ## Syncing a log -/

/-- The synced position of the last segment moves up to its write offset. -/
inductive Syncs : List Slot → List Slot → Prop where
  | none : Syncs [] []
  | last (l : List Slot) (s : Slot) (w : Nat) : (image frame s.ps).length ≤ w →
      Syncs (l ++ [s]) (l ++ [{ s with synced := w }])

/-- A sync changes no message. -/
theorem Syncs.messages_eq {l l' : List Slot} (h : Syncs l l') : messages l' = messages l := by
  cases h with
  | none => rfl
  | last l s w _ => rw [messages_snoc, messages_snoc]

section Sync

variable {page : PageSize} {lg : MqLog} {l : List Slot}

/-- A sync does not move the synced entries past the written ones. -/
theorem segmentSync_index_le {sgm : Segment} (page : PageSize)
    (h : sgm.sOffset.index ≤ sgm.wOffset.index) :
    (segmentSync page (true, true) sgm).2.sOffset.index ≤
      (segmentSync page (true, true) sgm).2.wOffset.index := by
  simp only [segmentSync, syncData, syncIndex, Bool.true_eq_false, if_false]
  split
  · exact h
  · exact Nat.le_refl _

theorem SlotHolds.segmentSync {b : Nat} {s : Slot} {sgm : Segment} (h : SlotHolds lg b s sgm)
    (page : PageSize) :
    SlotHolds { lg with segs := lg.segs.set s.addr (segmentSync page (true, true) sgm).2 } b
      { s with synced := sgm.wOffset.data } (segmentSync page (true, true) sgm).2 := by
  obtain ⟨hflags, hsize, hbase, -, -, hw⟩ := segmentSync_frame page sgm (true, true)
  have hsmall : sgm.wOffset.data < 2 ^ 32 :=
    Nat.lt_of_le_of_lt h.holds.written_le_size h.holds.small
  have hdata := segmentSync_sOffset page h.synced_le hsmall
  exact
    { get := Heap.get_set_self h.get
      holds := h.holds.segmentSync page (true, true)
      base_eq := hbase.trans h.base_eq
      size_eq := hsize.trans h.size_eq
      flags_eq := by rw [hflags]; exact h.flags_eq
      synced_eq := hdata
      synced_le := by rw [hdata, hw]
      synced_index_le := segmentSync_index_le page h.synced_index_le }

/-- A log without segments has nothing to sync. -/
theorem mqlogSync_empty (h : LogInv lg []) : mqlogSync page lg = some (0, lg) := by
  rw [mqlogSync, h.lastValue]
  rfl

/-- `mqlog_sync` syncs the last segment and no other. -/
theorem mqlogSync_last {s : Slot} {sgm : Segment} (h : LogInv lg (l ++ [s]))
    (hget : lg.segs.get s.addr = some sgm) :
    mqlogSync page lg = some ((segmentSync page (true, true) sgm).1,
      { lg with segs := lg.segs.set s.addr (segmentSync page (true, true) sgm).2 }) := by
  have hlast := h.lastValue
  rw [List.getLast?_concat] at hlast
  obtain ⟨size, flags, index, locked, segs, dir, calls⟩ := lg
  obtain rfl : calls = LogCalls.ok := h.calls
  have hlast' : mbptreeLastValue index = some (some s.addr) := hlast
  have hget' : segs.get s.addr = some sgm := hget
  simp only [mqlogSync, syncSegment, hlast', hget', Option.bind_eq_bind, Option.bind_some,
    LogCalls.ok, List.headD_nil, List.tail_nil, Option.pure_def]

/-- **A sync commits the last segment**, and keeps the log. -/
theorem LogInv.sync {s : Slot} (h : LogInv lg (l ++ [s])) (page : PageSize) :
    ∃ sgm rc lg' w, lg.segs.get s.addr = some sgm ∧ mqlogSync page lg = some (rc, lg') ∧
      lg' = { lg with segs := lg.segs.set s.addr (segmentSync page (true, true) sgm).2 } ∧
      LogInv lg' (l ++ [{ s with synced := w }]) ∧ (image frame s.ps).length ≤ w := by
  obtain ⟨sgm, hsgm⟩ := h.last
  refine ⟨sgm, _, _, sgm.wOffset.data, hsgm.get, mqlogSync_last h hsgm.get, rfl, ?_,
    hsgm.holds.le_written⟩
  exact h.replace_last rfl (fun a ha => Heap.get_set_of_ne ha) rfl rfl h.unlocked rfl rfl
    (h.nonempty s (List.mem_append_right _ (List.mem_singleton_self _))) (hsgm.segmentSync page)

theorem Growing.sync (h : Growing lg l) (page : PageSize) :
    ∃ rc lg' l', mqlogSync page lg = some (rc, lg') ∧ Growing lg' l' ∧ Syncs l l' ∧
      lg'.size = lg.size ∧ lg'.flags = lg.flags := by
  rcases List.eq_nil_or_concat l with rfl | ⟨l, s, rfl⟩
  · exact ⟨0, lg, [], mqlogSync_empty h.inv, h, .none, rfl, rfl⟩
  · rw [List.concat_eq_append] at *
    obtain ⟨sgm, rc, lg', w, -, heq, rfl, hinv, hw⟩ := h.inv.sync page
    refine ⟨rc, _, _, heq, ⟨hinv, fun t ht => ?_, ?_⟩, .last l s w hw, rfl, rfl⟩
    · rw [List.getLast?_concat] at ht
      rw [← Option.some.inj ht]
      exact h.unsealed s (by rw [List.getLast?_concat]; rfl)
    · have hstarts := h.only
      rw [starts_snoc] at hstarts
      rw [starts_snoc]
      exact hstarts

theorem Blocked.sync (h : Blocked lg l) (page : PageSize) :
    ∃ rc lg' l', mqlogSync page lg = some (rc, lg') ∧ Blocked lg' l' ∧ Syncs l l' ∧
      lg'.size = lg.size ∧ lg'.flags = lg.flags := by
  rcases List.eq_nil_or_concat l with rfl | ⟨l, s, rfl⟩
  · exact ⟨0, lg, [], mqlogSync_empty h.inv, h, .none, rfl, rfl⟩
  · rw [List.concat_eq_append] at *
    obtain ⟨sgm, rc, lg', w, hget, heq, rfl, hinv, hw⟩ := h.inv.sync page
    refine ⟨rc, _, _, heq, ⟨hinv, fun t sgm' ht hget' => ?_, ?_⟩, .last l s w hw, rfl, rfl⟩
    · rw [List.getLast?_concat] at ht
      obtain rfl := Option.some.inj ht
      rw [Heap.get_set_self hget] at hget'
      obtain rfl := Option.some.inj hget'
      obtain ⟨-, -, -, hbuffer, -, hwOffset⟩ := segmentSync_frame page sgm (true, true)
      rw [markedEos, hwOffset, hbuffer]
      exact h.sealed s sgm (by rw [List.getLast?_concat]; rfl) hget
    · have hfiles := h.files
      rw [messages_snoc] at hfiles ⊢
      exact hfiles

end Sync

/-! ## Sessions -/

/-- An open log, the messages that writes have taken, and how many of them were there when the last
    sync returned without an error. -/
structure LogSession where
  lg : MqLog
  written : List Buf
  committed : Nat

/-- One call. -/
def logSessionStep (page : PageSize) (s : LogSession) (c : MqlogCall) : Option LogSession := do
  let (_, rc, lg) ← mqlogCall page s.lg c
  match c with
  | .write buf =>
    pure { lg := lg, written := if 0 < rc then s.written ++ [buf] else s.written,
           committed := s.committed }
  | .read _ => pure { lg := lg, written := s.written, committed := s.committed }
  | .sync =>
    pure { lg := lg, written := s.written,
           committed := if 0 ≤ rc then s.written.length else s.committed }

/-- What was written before a sync is read after it. -/
def SyncCommits (s : LogSession) : Prop :=
  ∀ k buf, k < s.committed → s.written[k]? = some buf → LogReads s.lg k buf

/-- The last segment is synced up to its write offset, if there is one. -/
def lastSynced (lg : MqLog) : Bool :=
  match mbptreeLastValue lg.index with
  | some (some addr) =>
    match lg.segs.get addr with
    | some sgm => sgm.sOffset.data = sgm.wOffset.data
    | none => true
  | _ => true

/-- A write that starts a new segment leaves a synced one behind. -/
def SyncedBehind (page : PageSize) (s : LogSession) : MqlogCall → Prop
  | .write buf => ∀ key, RollsOver page s.lg buf key → lastSynced s.lg = true
  | _ => True

/-! ## What is committed -/

/-- All segments but the last are synced to the end, and the last one as far as the first `m`
    messages go. -/
structure Committed (l : List Slot) (m : Nat) : Prop where
  old : ∀ t ∈ l.dropLast, (image frame t.ps).length ≤ t.synced
  last : ∀ s ∈ l.getLast?, ∀ i, i < s.ps.length → (messages l.dropLast).length + i < m →
    start frame s.ps i < s.synced

theorem committed_nil : Committed [] 0 :=
  ⟨fun t ht => absurd ht List.not_mem_nil, fun s hs => by cases hs⟩

/-- What is committed of a log with one slot more: every older segment is synced to its end. -/
theorem committed_snoc {l : List Slot} {s : Slot} {m : Nat} :
    Committed (l ++ [s]) m ↔ (∀ t ∈ l, (image frame t.ps).length ≤ t.synced) ∧
      ∀ i, i < s.ps.length → (messages l).length + i < m → start frame s.ps i < s.synced := by
  constructor
  · intro h
    refine ⟨fun t ht => h.old t (by rwa [List.dropLast_concat]), fun i hi hm => ?_⟩
    refine h.last s (by rw [List.getLast?_concat]; rfl) i hi ?_
    rwa [List.dropLast_concat]
  · rintro ⟨hold, hlast⟩
    refine ⟨fun t ht => hold t (by rwa [List.dropLast_concat] at ht), fun t ht i hi hm => ?_⟩
    rw [List.getLast?_concat] at ht
    obtain rfl := Option.some.inj ht
    rw [List.dropLast_concat] at hm
    exact hlast i hi hm

/-- **Committed messages are visible.** -/
theorem Committed.visible {lg : MqLog} {l : List Slot} {m k : Nat} (h : Committed l m)
    (hk : k < m) :
    Visible lg l k := by
  intro _ j hj i hi hk'
  rcases List.eq_nil_or_concat l with rfl | ⟨l, s, heq⟩
  · exact absurd hj (Nat.not_lt_zero j)
  · rw [List.concat_eq_append] at heq
    subst heq
    obtain ⟨hold, hlast⟩ := committed_snoc.mp h
    have hlen : (l ++ [s]).length = l.length + 1 := List.length_append
    rcases Nat.lt_or_ge j l.length with hlt | hge
    · simp only [List.getElem_append_left hlt] at hi ⊢
      have hend := start_add_le_image (f := frame) hi
      have h12 := headerSize_le_frame l[j].ps[i]
      have hpos : headerSize = 12 := rfl
      have hsynced := hold l[j] (List.getElem_mem hlt)
      omega
    · obtain rfl : j = l.length := by omega
      rw [base_snoc] at hk'
      simp only [List.getElem_concat_length] at hi ⊢
      exact hlast i hi (by omega)

/-- A seal takes nothing back that is committed. -/
theorem Committed.seals {l l' : List Slot} {m : Nat} (h : Committed l m) (hseals : Seals l l') :
    Committed l' m := by
  cases hseals with
  | none => exact h
  | last l s tail =>
    obtain ⟨hold, hlast⟩ := committed_snoc.mp h
    exact committed_snoc.mpr ⟨hold, hlast⟩

/-- **A sync commits everything**, provided that the older segments are synced. -/
theorem Committed.syncs {l l' : List Slot} {m : Nat} (h : Committed l m) (hsyncs : Syncs l l')
    (m' : Nat) :
    Committed l' m' := by
  cases hsyncs with
  | none => exact ⟨h.old, fun s hs => by cases hs⟩
  | last l s w hw =>
    refine committed_snoc.mpr ⟨(committed_snoc.mp h).1, fun i hi _ => ?_⟩
    have hi' : i < s.ps.length := hi
    have hend := start_add_le_image (f := frame) hi'
    have h12 := headerSize_le_frame s.ps[i]
    have hpos : headerSize = 12 := rfl
    show start frame s.ps i < w
    omega

/-- **A write keeps what is committed** when a segment that it leaves behind is synced. -/
theorem Committed.grows {size : Nat} {buf : Buf} {l l' : List Slot} {m : Nat} (h : Committed l m)
    (hm : m ≤ (messages l).length) (hgrows : Grows size buf l l')
    (hbehind : ∀ l₀ s, l = l₀ ++ [s] → LastFull size buf s → (image frame s.ps).length ≤ s.synced) :
    Committed l' m := by
  cases hgrows with
  | first addr =>
    refine committed_snoc (l := []).mpr ⟨fun t ht => absurd ht List.not_mem_nil, fun i _ hi => ?_⟩
    have hzero : (messages []).length = 0 := rfl
    omega
  | room l s =>
    obtain ⟨hold, hlast⟩ := committed_snoc.mp h
    refine committed_snoc.mpr ⟨hold, fun i hi hi' => ?_⟩
    rw [messages_snoc, List.length_append] at hm
    have hlt : i < s.ps.length := by omega
    show start frame (s.ps ++ [buf]) i < s.synced
    rw [start_append (Nat.le_of_lt hlt)]
    exact hlast i hlt hi'
  | next l s tail addr hfull =>
    obtain ⟨hold, -⟩ := committed_snoc.mp h
    refine committed_snoc.mpr ⟨fun t ht => ?_, fun i _ hi => ?_⟩
    · rcases List.mem_append.mp ht with ht | ht
      · exact hold t ht
      · rw [List.mem_singleton.mp ht]
        exact hbehind l s rfl hfull
    · rw [messages_snoc] at hi hm
      have hi' : (messages l ++ s.ps).length + i < m := hi
      omega

/-! ## Runs -/

section Runs

variable {page : PageSize} {s : LogSession}

/-- A read leaves the log as it is. -/
theorem LogInv.read_same {lg : MqLog} {l : List Slot} (h : LogInv lg l) (offset : Nat) :
    ∃ rc fr, mqlogRead lg offset = some (rc, fr, lg) := by
  obtain ⟨it, hfloor, ⟨rfl, hvalid⟩ | ⟨j, hj, hvalid, hvalue, -, -⟩⟩ := h.floor offset
  · obtain ⟨fr, hread⟩ := h.unwritten (Nat.zero_le offset)
    exact ⟨ELNORD, fr, hread⟩
  · obtain ⟨sgm, hsgm⟩ := h.slots j hj
    exact ⟨_, _, h.read_eq hfloor hvalid hvalue hsgm.get⟩

theorem logSessionStep_write {buf : Buf} {rc : Int} {lg' : MqLog}
    (h : mqlogWrite page s.lg buf = some (rc, lg')) :
    logSessionStep page s (.write buf) =
      some ⟨lg', if 0 < rc then s.written ++ [buf] else s.written, s.committed⟩ := by
  rw [← writeTraced_eq, Option.map_eq_some_iff] at h
  obtain ⟨r, hcall, hr⟩ := h
  simp only [logSessionStep, mqlogCall, hcall, Option.bind_eq_bind, Option.bind_some,
    Option.pure_def, hr]

theorem logSessionStep_read {offset : Nat} {rc : Int} {fr : Option (Nat × Frame)} {lg' : MqLog}
    (h : mqlogRead s.lg offset = some (rc, fr, lg')) :
    logSessionStep page s (.read offset) = some ⟨lg', s.written, s.committed⟩ := by
  rw [mqlogRead, ← tryreadTraced_eq, Option.map_eq_some_iff] at h
  obtain ⟨r, hcall, hr⟩ := h
  simp only [logSessionStep, mqlogCall, hcall, Option.bind_eq_bind, Option.bind_some,
    Option.pure_def, hr]

theorem logSessionStep_sync {rc : Int} {lg' : MqLog} (h : mqlogSync page s.lg = some (rc, lg')) :
    logSessionStep page s .sync =
      some ⟨lg', s.written, if 0 ≤ rc then s.written.length else s.committed⟩ := by
  simp only [logSessionStep, mqlogCall, h, Option.bind_eq_bind, Option.bind_some, Option.pure_def]

/-- What holds between two calls of a session. -/
inductive LogSessionInv (page : PageSize) (s : LogSession) : Prop where
  | sizeless : Sizeless s.lg → s.written = [] → s.committed = 0 → LogSessionInv page s
  | sized (l : List Slot) : 0 < s.lg.size % 2 ^ 32 → s.lg.size % 2 ^ 32 % page.bytes = 0 →
      Growing s.lg l ∨ Blocked s.lg l → messages l = s.written → s.committed ≤ s.written.length →
      Committed l s.committed → LogSessionInv page s

/-- The invariant gives the property: a committed message can be read. -/
theorem LogSessionInv.syncCommits (h : LogSessionInv page s) : SyncCommits s := by
  intro k buf hk hbuf
  cases h with
  | sizeless _ _ hcommitted =>
    rw [hcommitted] at hk
    exact absurd hk (Nat.not_lt_zero k)
  | sized l _ _ hlog hmsgs _ hcommitted =>
    have hinv : LogInv s.lg l := by
      rcases hlog with hgrow | hblocked
      · exact hgrow.inv
      · exact hblocked.inv
    exact hinv.reads (by rw [hmsgs]; exact hbuf) (hcommitted.visible hk)

/-- A write that does not fit into the last segment, but into a new one. -/
theorem Growing.rollsOver {lg : MqLog} {l : List Slot} {t : Slot} {buf : Buf}
    (h : Growing lg (l ++ [t])) (h0 : 0 < lg.size % 2 ^ 32)
    (hmod : lg.size % 2 ^ 32 % page.bytes = 0) (hne : buf.1.length ≠ 0)
    (hfits : buf.1.length + 2 * headerSize ≤ lg.size % 2 ^ 32)
    (hfull : LastFull (lg.size % 2 ^ 32) buf t) : ∃ key, RollsOver page lg buf key := by
  obtain ⟨sgm, sgm', tail, hsgm, hwrite, -, hslot⟩ := h.last_refuses hfull
  have hlast := h.inv.lastValue
  rw [List.getLast?_concat] at hlast
  have hoffset : segmentWriteOffset (segmentWrite sgm buf).2 = (messages (l ++ [t])).length := by
    rw [hwrite, hslot.writeOffset, messages_snoc, List.length_append]
  refine ⟨_, h.inv.unlocked, hne, t.addr, sgm, hlast, hsgm.get, by rw [hwrite], rfl,
    0, Segment.fresh (messages (l ++ [t])).length (lg.size % 2 ^ 32) (createFlags lg),
    segmentFiles (lg.size % 2 ^ 32) (fun _ => 0) fun _ => 0, ?_, ?_⟩
  · rw [hoffset, h.inv.calls, h.only.files_eq_none h.inv.next_not_mem]
    exact segmentOpen_new _ _ h0 hmod
  · have hsmall : lg.size % 2 ^ 32 < 2 ^ 32 := Nat.mod_lt _ (by decide)
    have h4096 := page.le_of_mod h0 hmod
    have h12 : headerSize = 12 := rfl
    have hfresh : Holds (Segment.fresh (messages (l ++ [t])).length (lg.size % 2 ^ 32)
        (createFlags lg)) [] [] := holds_fresh _ _ (by omega) hsmall
    rw [hfresh.segmentWrite_fits looksSealed_nil buf
      (by rw [image_nil, List.length_nil, Nat.zero_add, Nat.add_comm]; exact hfits)]
    exact length_ne_eleos buf

/-- The last segment of a log is synced to its end. -/
theorem LogInv.synced_of_lastSynced {lg : MqLog} {l : List Slot} {t : Slot}
    (h : LogInv lg (l ++ [t])) (hsynced : lastSynced lg = true) :
    (image frame t.ps).length ≤ t.synced := by
  obtain ⟨sgm, hsgm⟩ := h.last
  have hlast := h.lastValue
  rw [List.getLast?_concat, Option.map_some] at hlast
  simp only [lastSynced, hlast, hsgm.get, decide_eq_true_eq] at hsynced
  rw [← hsgm.synced_eq, hsynced]
  exact hsgm.holds.le_written

/-- The step lemma, for a write. -/
theorem LogSessionInv.write {buf : Buf} (h : LogSessionInv page s)
    (hbehind : SyncedBehind page s (.write buf)) :
    ∃ s', logSessionStep page s (.write buf) = some s' ∧ LogSessionInv page s' := by
  cases h with
  | sizeless hsizeless hwritten hcommitted =>
    obtain ⟨rc, lg', hwrite, hlg', -, hrc, -⟩ := hsizeless.write page buf
    refine ⟨_, logSessionStep_write hwrite, .sizeless hlg' ?_ hcommitted⟩
    show (if 0 < rc then s.written ++ [buf] else s.written) = []
    rw [if_neg (Int.not_lt.mpr hrc), hwritten]
  | sized l h0 hmod hlog hmsgs hle hcommitted =>
    by_cases hne : buf.1.length = 0
    · have hwrite : mqlogWrite page s.lg buf = some (0, s.lg) := by rw [mqlogWrite, if_pos hne]
      exact ⟨_, logSessionStep_write hwrite, .sized l h0 hmod hlog hmsgs hle hcommitted⟩
    · have hneg : ¬ (0 : Int) < ELNOWCP := by decide
      rcases hlog with hgrow | hblocked
      · by_cases hfits : buf.1.length + 2 * headerSize ≤ s.lg.size % 2 ^ 32
        · obtain ⟨lg', l', hwrite, hgrow', hgrows, hsize, -⟩ := hgrow.write h0 hmod hne hfits
          have hpos : (0 : Int) < (buf.1.length : Nat) := by omega
          refine ⟨_, logSessionStep_write hwrite, .sized l' (by rwa [hsize]) (by rwa [hsize])
            (.inl hgrow') ?_ ?_ ?_⟩
          · rw [if_pos hpos, hgrows.messages_eq, hmsgs]
          · rw [if_pos hpos, List.length_append]
            exact Nat.le_add_right_of_le hle
          · refine hcommitted.grows (by rwa [hmsgs]) hgrows fun l₀ t heq hfull => ?_
            subst heq
            obtain ⟨key, hroll⟩ := hgrow.rollsOver h0 hmod hne hfits hfull
            exact hgrow.inv.synced_of_lastSynced (hbehind key hroll)
        · obtain ⟨lg', l', hwrite, hblocked, hseals, hsize, -⟩ :=
            hgrow.refuse h0 hmod (Nat.lt_of_not_le hfits)
          refine ⟨_, logSessionStep_write hwrite, .sized l' (by rwa [hsize]) (by rwa [hsize])
            (.inr hblocked) ?_ ?_ (hcommitted.seals hseals)⟩
          · rw [if_neg hneg, hseals.messages_eq, hmsgs]
          · rwa [if_neg hneg]
      · obtain ⟨lg', hwrite, hblocked', hsize, -⟩ := hblocked.refuse h0 hmod hne
        refine ⟨_, logSessionStep_write hwrite, .sized l (by rwa [hsize]) (by rwa [hsize])
          (.inr hblocked') ?_ ?_ hcommitted⟩
        · rw [if_neg hneg, hmsgs]
        · rwa [if_neg hneg]

/-- The step lemma, for a sync. -/
theorem LogSessionInv.sync (h : LogSessionInv page s) :
    ∃ s', logSessionStep page s .sync = some s' ∧ LogSessionInv page s' := by
  cases h with
  | sizeless hsizeless hwritten hcommitted =>
    refine ⟨_, logSessionStep_sync (mqlogSync_empty hsizeless.inv), .sizeless hsizeless hwritten ?_⟩
    rw [if_pos (Int.le_refl 0), hwritten]
    rfl
  | sized l h0 hmod hlog hmsgs hle hcommitted =>
    have hsynced : ∃ rc lg' l', mqlogSync page s.lg = some (rc, lg') ∧
        (Growing lg' l' ∨ Blocked lg' l') ∧ Syncs l l' ∧ lg'.size = s.lg.size := by
      rcases hlog with hgrow | hblocked
      · obtain ⟨rc, lg', l', heq, hgrow', hsyncs, hsize, -⟩ := hgrow.sync page
        exact ⟨rc, lg', l', heq, .inl hgrow', hsyncs, hsize⟩
      · obtain ⟨rc, lg', l', heq, hblocked', hsyncs, hsize, -⟩ := hblocked.sync page
        exact ⟨rc, lg', l', heq, .inr hblocked', hsyncs, hsize⟩
    obtain ⟨rc, lg', l', heq, hlog', hsyncs, hsize⟩ := hsynced
    refine ⟨_, logSessionStep_sync heq, .sized l' (by rwa [hsize]) (by rwa [hsize]) hlog'
      (hsyncs.messages_eq.trans hmsgs) ?_ (hcommitted.syncs hsyncs _)⟩
    split
    · exact Nat.le_refl _
    · exact hle

/-- The step lemma, for a read. -/
theorem LogSessionInv.read (h : LogSessionInv page s) (offset : Nat) :
    ∃ s', logSessionStep page s (.read offset) = some s' ∧ LogSessionInv page s' := by
  have hinv : ∃ l, LogInv s.lg l := by
    cases h with
    | sizeless hsizeless _ _ => exact ⟨[], hsizeless.inv⟩
    | sized l _ _ hlog _ _ _ =>
      rcases hlog with hgrow | hblocked
      · exact ⟨l, hgrow.inv⟩
      · exact ⟨l, hblocked.inv⟩
  obtain ⟨l, hlog⟩ := hinv
  obtain ⟨rc, fr, hread⟩ := hlog.read_same offset
  exact ⟨_, logSessionStep_read hread, h⟩

/-- **The step lemma**: every call returns, and keeps the invariant. -/
theorem LogSessionInv.step {c : MqlogCall} (hbehind : SyncedBehind page s c)
    (h : LogSessionInv page s) :
    ∃ s', logSessionStep page s c = some s' ∧ LogSessionInv page s' := by
  cases c with
  | write buf => exact h.write hbehind
  | read offset => exact h.read offset
  | sync => exact h.sync

/-- Opening an empty directory. -/
theorem logSessionInv_open {size flags : Nat} {names : List (List Char)} {rc : Int} {lg : MqLog}
    {dir : Dir} (hnames : Lists names Dir.empty)
    (hopen : mqlogOpen page .ok Dir.empty names size flags = some (rc, some lg, dir)) :
    LogSessionInv page ⟨lg, [], 0⟩ := by
  obtain ⟨hmod, hgrow, -⟩ := mqlogOpen_growing hnames hopen
  rcases Nat.eq_zero_or_pos (lg.size % 2 ^ 32) with hzero | h0
  · exact .sizeless ⟨hzero, hgrow.inv⟩ rfl rfl
  · exact .sized [] h0 hmod (.inl hgrow) rfl (Nat.le_refl _) committed_nil

end Runs

/-- **A sync commits everything written so far**, in every run in which a write that starts a new
    segment leaves a synced one behind. -/
theorem sync_commits {page : PageSize} {size : Nat} {names : List (List Char)} {rc : Int}
    {lg : MqLog} {dir : Dir} {cs : List MqlogCall} (hnames : Lists names Dir.empty)
    (hopen : mqlogOpen page .ok Dir.empty names size mqlogRdcmt = some (rc, some lg, dir))
    (hbehind : Along (logSessionStep page) (SyncedBehind page) ⟨lg, [], 0⟩ cs) :
    ∃ s, run (logSessionStep page) ⟨lg, [], 0⟩ cs = some s ∧ SyncCommits s := by
  obtain ⟨s, hrun, hinv⟩ := run_progress (fun _ _ hP hI => LogSessionInv.step hP hI) cs _ hbehind
    (logSessionInv_open hnames hopen)
  exact ⟨s, hrun, hinv.syncCommits⟩

/-- Nothing unsynced is left when a write comes. -/
def writesSynced (s : LogSession) : MqlogCall → Bool
  | .write _ => lastSynced s.lg
  | _ => true

theorem along_syncedBehind {page : PageSize} {cs : List MqlogCall} {s : LogSession}
    (h : Along (logSessionStep page) (fun s c => writesSynced s c = true) s cs) :
    Along (logSessionStep page) (SyncedBehind page) s cs := by
  refine Along.imp (I := fun _ => True) (fun s c _ hsynced => ?_) (fun _ _ _ _ _ _ => trivial) cs s
    trivial h
  cases c with
  | write buf => exact fun _ _ => hsynced
  | read offset => exact trivial
  | sync => exact trivial

/-- The second write starts a new segment, after a sync. -/
theorem sync_commits_of_two :
    ∃ lg s, mqlogOpen page4096 .ok Dir.empty [] 4096 mqlogRdcmt = some (0, some lg, Dir.empty) ∧
      run (logSessionStep page4096) ⟨lg, [], 0⟩ [.write (bytes 1 0x61 (by decide)), .sync,
        .write (bytes 4072 0x62 (by decide)), .read 0, .sync] = some s ∧ SyncCommits s := by
  have hopen : mqlogOpen page4096 .ok Dir.empty [] 4096 mqlogRdcmt = some (0, some _, Dir.empty) :=
    rfl
  obtain ⟨s, hrun, hcommits⟩ := sync_commits lists_nil hopen
    (show Along (logSessionStep page4096) (SyncedBehind page4096) _
      [.write (bytes 1 0x61 (by decide)), .sync, .write (bytes 4072 0x62 (by decide)), .read 0,
        .sync]
      from along_syncedBehind (by decide +kernel))
  exact ⟨_, s, hopen, hrun, hcommits⟩

/-- The first message was there at the last sync, and is not read. -/
def loses (s : LogSession) : Bool :=
  0 < s.committed && !s.written.isEmpty && (mqlogRead s.lg 0).map (fun r => r.1) = some ELNORD

theorem not_syncCommits_of_loses {s : LogSession} (h : loses s = true) : ¬ SyncCommits s := by
  intro hcommits
  rw [loses, Bool.and_eq_true, Bool.and_eq_true, decide_eq_true_eq, decide_eq_true_eq,
    Option.map_eq_some_iff] at h
  obtain ⟨⟨hpos, hwritten⟩, r, hread, hr⟩ := h
  cases hmsgs : s.written with
  | nil =>
    rw [hmsgs] at hwritten
    cases hwritten
  | cons buf bufs =>
    obtain ⟨addr, sgm, hdr, pos, hread', -⟩ := hcommits 0 buf hpos (by rw [hmsgs]; rfl)
    rw [hread] at hread'
    rw [Option.some.inj hread', ELNORD] at hr
    have hlen : (0 : Int) ≤ (buf.1.length : Nat) := Int.natCast_nonneg _
    simp only [] at hr
    omega

/-- Two messages in two segments: the sync returns `1` and commits the second one only. -/
theorem rollover_never_committed :
    ∃ lg s, mqlogOpen page4096 .ok Dir.empty [] 4096 mqlogRdcmt = some (0, some lg, Dir.empty) ∧
      run (logSessionStep page4096) ⟨lg, [], 0⟩ [.write (bytes 4072 0x61 (by decide)),
        .write (bytes 4072 0x62 (by decide)), .sync] = some s ∧ ¬ SyncCommits s := by
  have hopen : mqlogOpen page4096 .ok Dir.empty [] 4096 mqlogRdcmt = some (0, some _, Dir.empty) :=
    rfl
  have hruns : ((mqlogOpen page4096 .ok Dir.empty [] 4096 mqlogRdcmt).bind fun r =>
    r.2.1.bind fun lg =>
      (run (logSessionStep page4096) ⟨lg, [], 0⟩ [.write (bytes 4072 0x61 (by decide)),
        .write (bytes 4072 0x62 (by decide)), .sync]).map loses) = some true := by
    decide +kernel
  rw [hopen, Option.bind_some, Option.bind_some, Option.map_eq_some_iff] at hruns
  obtain ⟨s, hrun, hloses⟩ := hruns
  exact ⟨_, s, hopen, hrun, not_syncCommits_of_loses hloses⟩

end Mqlog
