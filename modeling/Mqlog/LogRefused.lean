/-
  What a refused message leaves behind.

  A message that fits into no segment is refused with `ELNOWCP`.  By then the last segment has been
  sealed, and a new segment has been created, sealed and closed without being added to the index;
  its files stay behind at the next offset.  Every later write finds the last segment sealed and
  opens the files left behind, which are sealed as well, and is refused too (`blocked_writeAll`):
  the log takes no message any more, however small.

  Crux: `Settled`, the two states a log can be in between two writes, is an invariant, and a write
  that returns `ELNOWCP` ends in the second one (`Settled.write`).

  To leave no trace (`LeavesNoTrace`) is a comparison of two logs, the one before the refused write
  and the one after it, over all runs of writes that may follow:

    * `takes`: every message that fits is still taken, at the next offset;
    * `reads`: reads give the same on both.

  A blocked log fails the first part with a message of one byte (`Blocked.not_leavesNoTrace`).  The
  second part holds right after the refusal: what was written before is still read.

  Opening an empty directory gives a log in the first state when a segment has bytes at all
  (`mqlogOpen_growing`).  A size that is a multiple of 4 GB is truncated to nothing: such a log
  never has a segment (`Sizeless`), but its writes fail with the error of `madvise`, and not with
  `ELNOWCP`, so it refuses no message in the sense of the property.
-/
import Mqlog.LogLaw

namespace Mqlog

open Lib Lib.Mem Lib.Records

/-! ## No trace -/

/-- The offset of the next message. -/
def nextOffset (lg : MqLog) : Option Nat := do
  match ← mbptreeLastValue lg.index with
  | none => pure 0
  | some addr => do
    let sgm ← lg.segs.get addr
    pure (segmentWriteOffset sgm)

/-- Reads give the same on both logs. -/
def ReadsAlike (lg lg' : MqLog) : Prop :=
  ∀ offset, (∀ buf, LogReads lg offset buf ↔ LogReads lg' offset buf) ∧
    (LogNotThere lg offset ↔ LogNotThere lg' offset)

/-- `lg'` is `lg` after a refused write.  It leaves no trace when every message that fits into a
    segment is still taken, at the next offset, and every read gives what it gives without the
    refused write; both now and after any further writes. -/
structure LeavesNoTrace (page : PageSize) (lg lg' : MqLog) : Prop where
  takes : ∀ bufs rcs lg₁, writeAll page lg' bufs = some (rcs, lg₁) →
    ∀ buf : Buf, 1 ≤ buf.1.length → buf.1.length + 2 * headerSize ≤ lg.size % 2 ^ 32 →
      ∃ lg₂, mqlogWrite page lg₁ buf = some ((buf.1.length : Int), lg₂) ∧
        nextOffset lg₂ = (nextOffset lg₁).map (· + 1)
  reads : ∀ bufs rcs rcs' lg₁ lg₁', writeAll page lg bufs = some (rcs, lg₁) →
    writeAll page lg' bufs = some (rcs', lg₁') → ReadsAlike lg₁ lg₁'

/-! ## The states of a log between two writes -/

/-- A log that takes what fits, or nothing. -/
def Settled (lg : MqLog) : Prop := (∃ l, Growing lg l) ∨ ∃ l, Blocked lg l

theorem natCast_ne_elnowcp (n : Nat) : (n : Int) ≠ ELNOWCP := by
  have hpos : (0 : Int) ≤ (n : Int) := Int.natCast_nonneg _
  rw [ELNOWCP]
  omega

section Steps

variable {page : PageSize} {lg : MqLog}

/-- **One write**: the log stays in one of the two states, and it is blocked when the message is
    refused. -/
theorem Settled.write (h : Settled lg) (h0 : 0 < lg.size % 2 ^ 32)
    (hmod : lg.size % 2 ^ 32 % page.bytes = 0) (buf : Buf) :
    ∃ written lg', mqlogWrite page lg buf = some (written, lg') ∧ Settled lg' ∧
      lg'.size = lg.size ∧ (written = ELNOWCP → ∃ l, Blocked lg' l) := by
  by_cases hne : buf.1.length = 0
  · refine ⟨0, lg, ?_, h, rfl, fun hrc => absurd hrc (by decide)⟩
    rw [mqlogWrite, if_pos hne]
  · rcases h with ⟨l, hgrow⟩ | ⟨l, hblocked⟩
    · by_cases hfits : buf.1.length + 2 * headerSize ≤ lg.size % 2 ^ 32
      · obtain ⟨lg', l', hwrite, hgrow', -, hsize, -⟩ := hgrow.write h0 hmod hne hfits
        exact ⟨_, lg', hwrite, .inl ⟨l', hgrow'⟩, hsize,
          fun hrc => absurd hrc (natCast_ne_elnowcp _)⟩
      · obtain ⟨lg', l', hwrite, hblocked, -, hsize, -⟩ :=
          hgrow.refuse h0 hmod (Nat.lt_of_not_le hfits)
        exact ⟨_, lg', hwrite, .inr ⟨l', hblocked⟩, hsize, fun _ => ⟨l', hblocked⟩⟩
    · obtain ⟨lg', hwrite, hblocked', hsize, -⟩ := hblocked.refuse h0 hmod hne
      exact ⟨_, lg', hwrite, .inr ⟨l, hblocked'⟩, hsize, fun _ => ⟨l, hblocked'⟩⟩

/-- A step of a run of writes. -/
theorem writeAll_cons {buf : Buf} {bufs : List Buf} {rcs : List Int} {lg₂ : MqLog}
    (hrun : writeAll page lg (buf :: bufs) = some (rcs, lg₂)) :
    ∃ rc rcs' lg₁, mqlogWrite page lg buf = some (rc, lg₁) ∧
      writeAll page lg₁ bufs = some (rcs', lg₂) := by
  rw [writeAll] at hrun
  simp only [Option.bind_eq_bind, Option.bind_eq_some_iff, Option.pure_def,
    Option.some.injEq] at hrun
  obtain ⟨r, hwrite, r', hrest, heq⟩ := hrun
  obtain ⟨-, rfl⟩ := Prod.mk.inj heq
  exact ⟨r.1, r'.1, r.2, hwrite, hrest⟩

/-- **A run of writes** keeps the log in one of the two states. -/
theorem Settled.writeAll :
    ∀ {bufs : List Buf} {lg lg₁ : MqLog} {rcs : List Int}, Settled lg → 0 < lg.size % 2 ^ 32 →
      lg.size % 2 ^ 32 % page.bytes = 0 → writeAll page lg bufs = some (rcs, lg₁) →
      Settled lg₁ ∧ lg₁.size = lg.size
  | [], lg, lg₁, rcs, h, _, _, hrun => by
    obtain ⟨-, rfl⟩ := Prod.mk.inj (Option.some.inj hrun)
    exact ⟨h, rfl⟩
  | buf :: bufs, lg, lg₂, rcs, h, h0, hmod, hrun => by
    obtain ⟨rc, rcs', lg₁, hwrite, hrest⟩ := writeAll_cons hrun
    obtain ⟨rc', lg₁', hwrite', h₁, hsize, -⟩ := h.write h0 hmod buf
    rw [hwrite] at hwrite'
    obtain ⟨-, rfl⟩ := Prod.mk.inj (Option.some.inj hwrite')
    obtain ⟨h₂, hsize₂⟩ := Settled.writeAll h₁ (by rwa [hsize]) (by rwa [hsize]) hrest
    exact ⟨h₂, hsize₂.trans hsize⟩

/-- **A blocked log stays blocked**: no later write is taken, whatever is written before it. -/
theorem blocked_writeAll :
    ∀ {bufs : List Buf} {lg lg₁ : MqLog} {l : List Slot} {rcs : List Int}, Blocked lg l →
      0 < lg.size % 2 ^ 32 → lg.size % 2 ^ 32 % page.bytes = 0 →
      writeAll page lg bufs = some (rcs, lg₁) →
      ∀ buf : Buf, buf.1.length ≠ 0 → ∃ lg₂, mqlogWrite page lg₁ buf = some (ELNOWCP, lg₂)
  | [], lg, lg₁, l, rcs, h, h0, hmod, hrun => by
    intro buf hne
    obtain ⟨-, rfl⟩ := Prod.mk.inj (Option.some.inj hrun)
    obtain ⟨lg₂, hwrite, -⟩ := h.refuse h0 hmod hne
    exact ⟨lg₂, hwrite⟩
  | buf' :: bufs, lg, lg₂, l, rcs, h, h0, hmod, hrun => by
    obtain ⟨rc, rcs', lg₁, hwrite, hrest⟩ := writeAll_cons hrun
    by_cases hne : buf'.1.length = 0
    · rw [mqlogWrite, if_pos hne] at hwrite
      obtain ⟨-, rfl⟩ := Prod.mk.inj (Option.some.inj hwrite)
      exact blocked_writeAll h h0 hmod hrest
    · obtain ⟨lg₁', hwrite', h₁, hsize, -⟩ := h.refuse h0 hmod hne
      rw [hwrite] at hwrite'
      obtain ⟨-, rfl⟩ := Prod.mk.inj (Option.some.inj hwrite')
      exact blocked_writeAll h₁ (by rwa [hsize]) (by rwa [hsize]) hrest

/-- A blocked log is not one without a trace: a single byte is refused. -/
theorem Blocked.not_leavesNoTrace {lg' : MqLog} {l : List Slot} (h : Blocked lg' l)
    (h0 : 0 < lg'.size % 2 ^ 32) (hmod : lg'.size % 2 ^ 32 % page.bytes = 0)
    (hsize : lg'.size = lg.size) : ¬ LeavesNoTrace page lg lg' := by
  intro hno
  have h4096 := page.le_of_mod h0 hmod
  have h12 : headerSize = 12 := rfl
  have hlen : (bytes 1 0 (by decide)).1.length = 1 := length_bytes ..
  obtain ⟨lg₂, hwrite, -⟩ := hno.takes [] [] lg' rfl (bytes 1 0 (by decide)) (by rw [hlen])
    (by rw [hlen, ← hsize]; omega)
  have hne : (bytes 1 0 (by decide)).1.length ≠ 0 := by
    rw [hlen]
    decide
  obtain ⟨lg₂', hrefused, -⟩ := h.refuse h0 hmod hne
  rw [hrefused] at hwrite
  exact natCast_ne_elnowcp _ (Prod.mk.inj (Option.some.inj hwrite)).1.symm

end Steps

/-! ## Segments without bytes -/

/-- The size of a segment is a multiple of the page size as well. -/
theorem PageSize.mod_of_mod (page : PageSize) {size : Nat} (h : size % page.bytes = 0) :
    size % 2 ^ 32 % page.bytes = 0 := by
  obtain ⟨k, h12, h64, hbytes⟩ := page.pow
  rcases Nat.le_total k 32 with hk | hk
  · have hdvd : page.bytes ∣ 2 ^ 32 := by
      rw [hbytes]
      exact Nat.pow_dvd_pow 2 hk
    rwa [Nat.mod_mod_of_dvd _ hdvd]
  · have hdvd : 2 ^ 32 ∣ page.bytes := by
      rw [hbytes]
      exact Nat.pow_dvd_pow 2 hk
    have hzero : size % 2 ^ 32 = 0 :=
      Nat.mod_eq_zero_of_dvd (Nat.dvd_trans hdvd (Nat.dvd_of_mod_eq_zero h))
    rw [hzero, Nat.zero_mod]

/-- A log that cannot create a segment, and has none. -/
structure Sizeless (lg : MqLog) : Prop where
  size_eq : lg.size % 2 ^ 32 = 0
  inv : LogInv lg []

/-- A segment without bytes cannot be opened. -/
theorem segmentOpen_zero (page : PageSize) (files : SegmentFiles) (b flags : Nat) :
    ∃ rc files', segmentOpen page .ok files b 0 flags = (rc, none, files') ∧
      (rc = ELFLEOP ∨ rc = ELMADV) := by
  have hindex : calculateIndexSize 0 = 0 := rfl
  rw [segmentOpen, if_neg (by rw [Nat.zero_mod]; decide), if_neg (by decide)]
  simp only [hindex, OpenCalls.ok, openFile, mmapHelper]
  by_cases hfound : 0 < (files.index.getD ⟨0, fun _ => 0⟩).size ∧
      (files.index.getD ⟨0, fun _ => 0⟩).size ≠ 0
  · rw [if_pos hfound]
    exact ⟨ELFLEOP, _, rfl, .inl rfl⟩
  · rw [if_neg hfound]
    exact ⟨ELMADV, _, rfl, .inr rfl⟩

/-- **A log without room for a segment** takes no message, but does not blame the message. -/
theorem Sizeless.write {lg : MqLog} (h : Sizeless lg) (page : PageSize) (buf : Buf) :
    ∃ written lg', mqlogWrite page lg buf = some (written, lg') ∧ Sizeless lg' ∧
      lg'.size = lg.size ∧ written ≤ 0 ∧ written ≠ ELNOWCP := by
  by_cases hne : buf.1.length = 0
  · refine ⟨0, lg, ?_, h, rfl, Int.le_refl _, by decide⟩
    rw [mqlogWrite, if_pos hne]
  · obtain ⟨size, flags, index, locked, segs, dir, calls⟩ := lg
    obtain rfl : locked = false := h.inv.unlocked
    obtain rfl : calls = LogCalls.ok := h.inv.calls
    have hsize : size % 2 ^ 32 = 0 := h.size_eq
    have hempty : mbptreeLastValue index = some none := h.inv.lastValue
    obtain ⟨rc, files, hopen, hrc⟩ := segmentOpen_zero page (dir.files 0) 0
      (if flags &&& mqlogRdcmt = mqlogRdcmt then sgmRdcmt else sgmRddrt)
    refine ⟨rc, ⟨size, flags, index, false, segs, dir.put 0 files, LogCalls.ok⟩, ?_,
      ⟨hsize, h.inv.congr _ rfl (fun _ _ => rfl) rfl rfl rfl rfl⟩, rfl, ?_⟩
    · rw [mqlogWrite, if_neg hne, if_neg Bool.false_ne_true, mqlogTrywrite]
      simp only [hempty, Option.bind_eq_bind, Option.bind_some, createSegment, openSegment,
        LogCalls.ok, List.headD_nil, List.tail_nil, hsize, hopen, Option.pure_def]
    · rcases hrc with rfl | rfl
      · decide
      · decide

theorem Sizeless.writeAll {page : PageSize} :
    ∀ {bufs : List Buf} {lg lg₁ : MqLog} {rcs : List Int}, Sizeless lg →
      writeAll page lg bufs = some (rcs, lg₁) → Sizeless lg₁
  | [], lg, lg₁, rcs, h, hrun => by
    obtain ⟨-, rfl⟩ := Prod.mk.inj (Option.some.inj hrun)
    exact h
  | buf :: bufs, lg, lg₂, rcs, h, hrun => by
    obtain ⟨rc, rcs', lg₁, hwrite, hrest⟩ := writeAll_cons hrun
    obtain ⟨rc', lg₁', hwrite', h₁, -⟩ := h.write page buf
    rw [hwrite] at hwrite'
    obtain ⟨-, rfl⟩ := Prod.mk.inj (Option.some.inj hwrite')
    exact h₁.writeAll hrest

/-- What opening an empty directory gives when it gives a log. -/
theorem mqlogOpen_growing {page : PageSize} {size flags : Nat} {names : List (List Char)} {rc : Int}
    {lg : MqLog} {dir : Dir} (hnames : Lists names Dir.empty)
    (hopen : mqlogOpen page .ok Dir.empty names size flags = some (rc, some lg, dir)) :
    lg.size % 2 ^ 32 % page.bytes = 0 ∧ Growing lg [] ∧ lg.size = size ∧ lg.flags = flags := by
  have hmod : size % page.bytes = 0 := by
    by_contra hmod
    rw [mqlogOpen, if_pos hmod] at hopen
    cases hopen
  obtain ⟨lg', hopen', hgrow, hsize, hflags⟩ := mqlogOpen_empty flags hmod hnames
  rw [hopen] at hopen'
  obtain ⟨hlg, -⟩ := Prod.mk.inj (Prod.mk.inj (Option.some.inj hopen')).2
  obtain rfl : lg = lg' := Option.some.inj hlg
  rw [← hsize] at hmod
  exact ⟨page.mod_of_mod hmod, hgrow, hsize, hflags⟩

/-! ## The trace -/

/-- **A refused write always leaves a trace**: in every log that writes make of an empty directory,
    and whatever the refused message is. -/
theorem refused_write_leaves_trace {page : PageSize} {size flags : Nat} {names : List (List Char)}
    {bufs : List Buf} {rc : Int} {rcs : List Int} {lg₀ lg lg' : MqLog} {dir : Dir} {buf : Buf}
    (hnames : Lists names Dir.empty)
    (hopen : mqlogOpen page .ok Dir.empty names size flags = some (rc, some lg₀, dir))
    (hrun : writeAll page lg₀ bufs = some (rcs, lg))
    (hrefused : mqlogWrite page lg buf = some (ELNOWCP, lg')) : ¬ LeavesNoTrace page lg lg' := by
  obtain ⟨hmod', hgrow, -⟩ := mqlogOpen_growing hnames hopen
  rcases Nat.eq_zero_or_pos (lg₀.size % 2 ^ 32) with hzero | h0
  · -- no segment can be created, so no write is refused for its length
    have hsizeless : Sizeless lg₀ := ⟨hzero, hgrow.inv⟩
    obtain ⟨written, lg₁, hwrite, -, -, -, hne⟩ := (hsizeless.writeAll hrun).write page buf
    rw [hrefused] at hwrite
    exact absurd (Prod.mk.inj (Option.some.inj hwrite)).1.symm hne
  · have hsettled : Settled lg₀ := .inl ⟨[], hgrow⟩
    obtain ⟨hlg, hsize'⟩ := hsettled.writeAll h0 hmod' hrun
    rw [← hsize'] at h0 hmod'
    obtain ⟨written, lg₁, hwrite, -, hsize₁, hblocked⟩ := hlg.write h0 hmod' buf
    rw [hrefused] at hwrite
    obtain ⟨rfl, rfl⟩ := Prod.mk.inj (Option.some.inj hwrite)
    obtain ⟨l, hl⟩ := hblocked rfl
    rw [← hsize₁] at h0 hmod'
    exact hl.not_leavesNoTrace h0 hmod' hsize₁

/-- One byte is written, then 4073 bytes are refused by segments of 4096 bytes. -/
theorem refused_after_one :
    ∃ lg₀ lg lg' l, mqlogOpen page4096 .ok Dir.empty [] 4096 mqlogRddrt =
        some (0, some lg₀, Dir.empty) ∧
      writeAll page4096 lg₀ [bytes 1 0x61 (by decide)] = some ([1], lg) ∧
      mqlogWrite page4096 lg (bytes 4073 0x62 (by decide)) = some (ELNOWCP, lg') ∧
      Blocked lg' l ∧ lg'.size = lg.size ∧ lg'.size = 4096 := by
  have hmod : 4096 % page4096.bytes = 0 := by decide
  obtain ⟨lg₀, hopen, hgrow, hsize, -⟩ := mqlogOpen_empty mqlogRddrt hmod lists_nil
  have hbufs : ∀ buf ∈ [bytes 1 0x61 (by decide)],
      buf.1.length ≠ 0 ∧ buf.1.length + 2 * headerSize ≤ lg₀.size % 2 ^ 32 := by
    intro buf hbuf
    rw [List.mem_singleton.mp hbuf, length_bytes, hsize]
    decide
  obtain ⟨lg, l, hrun, hgrow', -, hsize', -⟩ := hgrow.writeAll page4096 _
    (by rw [hsize]; decide) (by rw [hsize]; decide) hbufs
  have h0 : 0 < lg.size % 2 ^ 32 := by rw [hsize', hsize]; decide
  have hmod' : lg.size % 2 ^ 32 % page4096.bytes = 0 := by rw [hsize', hsize]; decide
  have hbig : lg.size % 2 ^ 32 < (bytes 4073 0x62 (by decide)).1.length + 2 * headerSize := by
    rw [hsize', hsize, length_bytes]
    decide
  obtain ⟨lg', l', hrefused, hblocked, -, hsize'', -⟩ := hgrow'.refuse h0 hmod' hbig
  refine ⟨lg₀, lg, lg', l', hopen, ?_, hrefused, hblocked, hsize'',
    hsize''.trans (hsize'.trans hsize)⟩
  have hlengths : lengths [bytes 1 0x61 (by decide)] = [1] := by
    rw [lengths, List.map_singleton, length_bytes]
    rfl
  rw [hrun, hlengths]

theorem refused_write_leaves_trace_of_one :
    ∃ lg₀ lg lg', mqlogOpen page4096 .ok Dir.empty [] 4096 mqlogRddrt =
        some (0, some lg₀, Dir.empty) ∧
      writeAll page4096 lg₀ [bytes 1 0x61 (by decide)] = some ([1], lg) ∧
      mqlogWrite page4096 lg (bytes 4073 0x62 (by decide)) = some (ELNOWCP, lg') ∧
      ¬ LeavesNoTrace page4096 lg lg' := by
  obtain ⟨lg₀, lg, lg', l, hopen, hrun, hrefused, -⟩ := refused_after_one
  exact ⟨lg₀, lg, lg', hopen, hrun, hrefused,
    refused_write_leaves_trace lists_nil hopen hrun hrefused⟩

/-- After the refusal a single byte is refused as well. -/
theorem byte_refused_after_refusal :
    ∃ lg₀ lg lg' lg₂, mqlogOpen page4096 .ok Dir.empty [] 4096 mqlogRddrt =
        some (0, some lg₀, Dir.empty) ∧
      writeAll page4096 lg₀ [bytes 1 0x61 (by decide)] = some ([1], lg) ∧
      mqlogWrite page4096 lg (bytes 4073 0x62 (by decide)) = some (ELNOWCP, lg') ∧
      mqlogWrite page4096 lg' (bytes 1 0x63 (by decide)) = some (ELNOWCP, lg₂) ∧
      ¬ LeavesNoTrace page4096 lg lg' := by
  obtain ⟨lg₀, lg, lg', l, hopen, hrun, hrefused, hblocked, hsize, h4096⟩ := refused_after_one
  have h0 : 0 < lg'.size % 2 ^ 32 := by rw [h4096]; decide
  have hmod : lg'.size % 2 ^ 32 % page4096.bytes = 0 := by rw [h4096]; decide
  have hne : (bytes 1 0x63 (by decide)).1.length ≠ 0 := by
    rw [length_bytes]
    decide
  obtain ⟨lg₂, hwrite, -⟩ := hblocked.refuse h0 hmod hne
  exact ⟨lg₀, lg, lg', lg₂, hopen, hrun, hrefused, hwrite,
    hblocked.not_leavesNoTrace h0 hmod hsize⟩

end Mqlog
