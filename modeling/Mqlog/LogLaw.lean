/-
  The contents of a log: what has been written can be read back, and nothing else.

  Opening an empty directory gives a log without messages (`mqlogOpen_empty`), every write of a
  message that fits appends it (`Growing.write`), so after any sequence of such writes the messages
  of the log are those that were written (`Growing.writeAll`).

  The law is the induction over the writes, and the two directions of reading are those of the
  invariant: `LogInv.reads` for an offset below the number of messages, `LogInv.unwritten` for the
  others.  `MQLOG_RDDRT` comes in only here: such a log shows every message, synced or not
  (`visible_rddrt`).

  How often a write starts a new segment does not matter to any of this.  `log_contents_of_two` is a
  run in which it does: two messages, the second of which does not fit behind the first one.

  `writeAll` collects the return codes, so that the law can say that they are the lengths of the
  messages: no write of the run is refused, and each of them returns.
-/
import Mqlog.LogWrite

namespace Mqlog

open Lib Lib.Mem Lib.Records

/-- A sequence of writes: the return codes, and the log afterwards. -/
def writeAll (page : PageSize) : MqLog → List Buf → Option (List Int × MqLog)
  | lg, [] => some ([], lg)
  | lg, buf :: bufs => do
    let (rc, lg) ← mqlogWrite page lg buf
    let (rcs, lg) ← writeAll page lg bufs
    pure (rc :: rcs, lg)

/-- The return codes of writes that succeed. -/
def lengths (bufs : List Buf) : List Int := bufs.map fun buf => (buf.1.length : Int)

/-! ## An empty directory -/

theorem loadSegments_skip {page : PageSize} {lg : MqLog} :
    ∀ {names : List (List Char)}, (∀ name ∈ names, isLog name = false) →
      loadSegments page lg names = some (0, lg)
  | [], _ => rfl
  | name :: names, h => by
    rw [loadSegments, h name List.mem_cons_self, if_neg Bool.false_ne_true]
    exact loadSegments_skip fun name' hname' => h name' (List.mem_cons_of_mem _ hname')

theorem not_isLog_of_lists_empty {names : List (List Char)} (h : Lists names Dir.empty) :
    ∀ name ∈ names, isLog name = false := by
  intro name hname
  rw [← Bool.not_eq_true]
  intro hlog
  have hsome := (h.2 name hlog).mp hname
  cases hsome

/-- The log that `mqlog_open` loads the segments of a directory into. -/
theorem mqlogOpen_fresh {page : PageSize} {size : Nat} (flags : Nat) (dir : Dir)
    (hmod : size % page.bytes = 0) :
    ∃ lg, LogInv lg [] ∧ lg.size = size ∧ lg.flags = flags ∧ lg.dir = dir ∧
      ∀ names, mqlogOpen page .ok dir names size flags = (loadSegments page lg names).bind fun r =>
        if r.1 ≠ 0 then (mqlogClose page r.2).bind fun q => some (r.1, none, q.2.dir)
        else some (0, some r.2, r.2.dir) := by
  obtain ⟨index, hinit, htree⟩ := mbptreeInit_spec three_le_branchFactor
  refine ⟨{ size := size, flags := flags, index := index, locked := false, segs := Heap.empty,
            dir := dir, calls := .ok }, ⟨htree, ?_, List.nodup_nil, ?_, rfl, rfl⟩, rfl, rfl,
              rfl, ?_⟩
  · exact fun k hk => absurd hk (Nat.not_lt_zero k)
  · exact fun s hs => absurd hs List.not_mem_nil
  · intro names
    have hinit' : mbptreeInit branchFactor LogCalls.ok.allocs = some index := hinit
    rw [mqlogOpen, if_neg (not_not.mpr hmod), if_neg (by decide), if_neg (by decide), hinit']
    simp only [Option.bind_eq_bind]
    rw [if_neg (by decide)]
    rfl

/-- **Opening an empty directory** gives an empty log. -/
theorem mqlogOpen_empty {page : PageSize} {size : Nat} (flags : Nat) {names : List (List Char)}
    (hmod : size % page.bytes = 0) (hnames : Lists names Dir.empty) :
    ∃ lg, mqlogOpen page .ok Dir.empty names size flags = some (0, some lg, Dir.empty) ∧
      Growing lg [] ∧ lg.size = size ∧ lg.flags = flags := by
  obtain ⟨lg, hinv, hsize, hflags, hdir, hopen⟩ := mqlogOpen_fresh flags Dir.empty hmod
  refine ⟨lg, ?_, ⟨hinv, fun s hs => ?_, ?_⟩, hsize, hflags⟩
  · rw [hopen, loadSegments_skip (not_isLog_of_lists_empty hnames), Option.bind_some,
      if_neg (not_not.mpr rfl), hdir]
  · cases hs
  · rw [hdir]
    exact Dir.only_empty

/-! ## Runs of writes -/

/-- **Writes append**: the codes are the lengths, and the messages are in the log in order. -/
theorem Growing.writeAll (page : PageSize) :
    ∀ (bufs : List Buf) {lg : MqLog} {l : List Slot}, Growing lg l → 0 < lg.size % 2 ^ 32 →
      lg.size % 2 ^ 32 % page.bytes = 0 →
      (∀ buf ∈ bufs, buf.1.length ≠ 0 ∧ buf.1.length + 2 * headerSize ≤ lg.size % 2 ^ 32) →
      ∃ lg' l', writeAll page lg bufs = some (lengths bufs, lg') ∧ Growing lg' l' ∧
        messages l' = messages l ++ bufs ∧ lg'.size = lg.size ∧ lg'.flags = lg.flags
  | [], lg, l, h, _, _, _ => ⟨lg, l, rfl, h, (List.append_nil _).symm, rfl, rfl⟩
  | buf :: bufs, lg, l, h, h0, hmod, hfit => by
    obtain ⟨hne, hfits⟩ := hfit buf List.mem_cons_self
    obtain ⟨lg₁, l₁, hwrite, h₁, hgrows, hsize₁, hflags₁⟩ := h.write h0 hmod hne hfits
    obtain ⟨lg₂, l₂, hrest, h₂, hmsgs, hsize₂, hflags₂⟩ := Growing.writeAll page bufs h₁
      (by rwa [hsize₁]) (by rwa [hsize₁])
      (fun b hb => by rw [hsize₁]; exact hfit b (List.mem_cons_of_mem _ hb))
    refine ⟨lg₂, l₂, ?_, h₂, ?_, hsize₂.trans hsize₁, hflags₂.trans hflags₁⟩
    · rw [Mqlog.writeAll, hwrite]
      simp only [Option.bind_eq_bind, Option.bind_some, hrest]
      rfl
    · rw [hmsgs, hgrows.messages_eq, List.append_assoc, List.singleton_append]

/-- A log that is read dirty shows every message. -/
theorem visible_rddrt {lg : MqLog} {l : List Slot} {k : Nat}
    (h : lg.flags &&& mqlogRdcmt ≠ mqlogRdcmt) : Visible lg l k := fun hflags => absurd hflags h

/-- **Log contents law**: on a log opened on an empty directory every write of a message that fits
    into a segment returns its length, and after any number of them each message is read back under
    its number, byte for byte, and there is nothing behind the last one. -/
theorem log_contents {page : PageSize} {size : Nat} (h0 : 0 < size) (hmod : size % page.bytes = 0)
    (hsmall : size < 2 ^ 32) {names : List (List Char)} (hnames : Lists names Dir.empty)
    {bufs : List Buf}
    (hbufs : ∀ buf ∈ bufs, 1 ≤ buf.1.length ∧ buf.1.length + 2 * headerSize ≤ size) :
    ∃ lg₀, mqlogOpen page .ok Dir.empty names size mqlogRddrt = some (0, some lg₀, Dir.empty) ∧
      ∀ n, n ≤ bufs.length → ∃ lg,
        writeAll page lg₀ (bufs.take n) = some (lengths (bufs.take n), lg) ∧
        (∀ k buf, k < n → bufs[k]? = some buf → LogReads lg k buf) ∧
        ∀ k, n ≤ k → LogNotThere lg k := by
  obtain ⟨lg₀, hopen, hgrow, hsize, hflags⟩ :=
    mqlogOpen_empty mqlogRddrt hmod hnames
  have hmod32 : size % 2 ^ 32 = size := Nat.mod_eq_of_lt hsmall
  refine ⟨lg₀, hopen, fun n hn => ?_⟩
  obtain ⟨lg, l, hrun, hgrow', hmsgs, -, hflags'⟩ := Growing.writeAll page (bufs.take n)
    hgrow (by rwa [hsize, hmod32]) (by rwa [hsize, hmod32]) (fun buf hbuf => by
      obtain ⟨hpos, hfits⟩ := hbufs buf (List.mem_of_mem_take hbuf)
      rw [hsize, hmod32]
      exact ⟨Nat.ne_of_gt hpos, hfits⟩)
  have hmsgs' : messages l = bufs.take n := hmsgs
  refine ⟨lg, hrun, fun k buf hk hbuf => ?_, fun k hk => ?_⟩
  · refine hgrow'.inv.reads ?_ (visible_rddrt (by rw [hflags', hflags]; decide))
    rw [hmsgs', List.getElem?_take_of_lt hk]
    exact hbuf
  · exact hgrow'.inv.unwritten (by rw [hmsgs', List.length_take]; omega)

theorem lists_nil : Lists [] Dir.empty :=
  ⟨List.nodup_nil, fun _ _ => ⟨fun hname => absurd hname List.not_mem_nil,
    fun hsome => absurd hsome Bool.false_ne_true⟩⟩

/-- The short message and the long one fit into a page each. -/
theorem fit_two : ∀ buf ∈ [bytes 1 0x61 (by decide), bytes 4072 0x62 (by decide)],
    1 ≤ buf.1.length ∧ buf.1.length + 2 * headerSize ≤ 4096 := by
  intro buf hbuf
  simp only [List.mem_cons, List.not_mem_nil, or_false] at hbuf
  rcases hbuf with rfl | rfl
  · rw [length_bytes]
    decide
  · rw [length_bytes]
    decide

/-- Two messages in segments of one page; the second one starts a new segment. -/
theorem log_contents_of_two :
    ∃ lg₀, mqlogOpen page4096 .ok Dir.empty [] 4096 mqlogRddrt = some (0, some lg₀, Dir.empty) ∧
      ∀ n, n ≤ 2 → ∃ lg,
        writeAll page4096 lg₀ ([bytes 1 0x61 (by decide), bytes 4072 0x62 (by decide)].take n) =
          some (lengths ([bytes 1 0x61 (by decide), bytes 4072 0x62 (by decide)].take n), lg) ∧
        (∀ k buf, k < n → [bytes 1 0x61 (by decide), bytes 4072 0x62 (by decide)][k]? = some buf →
          LogReads lg k buf) ∧
        ∀ k, n ≤ k → LogNotThere lg k := by
  exact log_contents (by decide) (by decide) (by decide) lists_nil fit_two

end Mqlog
