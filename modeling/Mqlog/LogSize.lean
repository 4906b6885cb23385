/-
  The size that a log is opened with.

  `mqlog_open` takes a `size_t`, `segment_open` a `uint32_t`.  So a log of `size` bytes a segment
  creates segments of `size % 2 ^ 32` bytes: what is asked for below 4 GB (`HonoursSize`), and from
  there on less, or nothing at all when the size is a multiple of 4 GB.

  `create_segment` passes `lg->size` on without a check.  There are three cases of a log that was
  opened with `size` bytes a segment and gets its first message:

    * `size < 2 ^ 32`: the segment has `size` bytes, and takes the message when it fits there;
    * `2 ^ 32 <= size`, not a multiple of it: the segment has `size % 2 ^ 32` bytes, and takes the
      message when it fits there (`Growing.first_size`), in a segment that is too small;
    * a multiple of `2 ^ 32`: `ftruncate` to no bytes, and a mapping of nothing: no segment.

  `mqlog_open` itself succeeds in all of them, since it only checks that the size is a multiple of
  the page size, which it then is modulo `2 ^ 32` as well.
-/
import Mqlog.LogRefused

namespace Mqlog

open Lib Lib.Mem Lib.Records

/-- The next write returns the length of the payload, and the segment that the index then ends with
    has the size of the log. -/
def HonoursSize (page : PageSize) (lg : MqLog) (buf : Buf) : Prop :=
  ∃ lg' addr sgm, mqlogWrite page lg buf = some ((buf.1.length : Int), lg') ∧
    mbptreeLastValue lg'.index = some (some addr) ∧ lg'.segs.get addr = some sgm ∧
      sgm.size = lg.size

theorem Grows.exists_first {size : Nat} {buf : Buf} {l : List Slot} (h : Grows size buf [] l) :
    ∃ addr, l = [⟨addr, [buf], [], 0⟩] := by
  generalize hnil : ([] : List Slot) = before at h
  cases h with
  | first addr => exact ⟨addr, rfl⟩
  | room l s => exact absurd hnil.symm (List.append_ne_nil_of_right_ne_nil _ (List.cons_ne_nil _ _))
  | next l s tail addr _ =>
    exact absurd hnil.symm (List.append_ne_nil_of_right_ne_nil _ (List.cons_ne_nil _ _))

/-- The first message goes into a segment of the truncated size, when it fits there. -/
theorem Growing.first_size {page : PageSize} {lg : MqLog} {buf : Buf} (h : Growing lg [])
    (h0 : 0 < lg.size % 2 ^ 32) (hmod : lg.size % 2 ^ 32 % page.bytes = 0) (hne : buf.1.length ≠ 0)
    (hfits : buf.1.length + 2 * headerSize ≤ lg.size % 2 ^ 32) :
    ∃ lg' addr sgm, mqlogWrite page lg buf = some ((buf.1.length : Int), lg') ∧
      mbptreeLastValue lg'.index = some (some addr) ∧ lg'.segs.get addr = some sgm ∧
      sgm.size = lg.size % 2 ^ 32 := by
  obtain ⟨lg', l', hwrite, hgrow, hgrows, hsize, -⟩ := h.write h0 hmod hne hfits
  obtain ⟨addr, rfl⟩ := hgrows.exists_first
  obtain ⟨sgm, hsgm⟩ := hgrow.inv.slots 0 (Nat.succ_pos 0)
  refine ⟨lg', addr, sgm, hwrite, hgrow.inv.lastValue, hsgm.get, ?_⟩
  rw [hsgm.size_eq, hsize]

/-- A size that is truncated is not honoured: the segment is smaller, or there is none. -/
theorem Growing.not_honoursSize {page : PageSize} {lg : MqLog} {buf : Buf} (h : Growing lg [])
    (hmod : lg.size % 2 ^ 32 % page.bytes = 0) (hne : buf.1.length ≠ 0) (hbig : 2 ^ 32 ≤ lg.size) :
    ¬ HonoursSize page lg buf := by
  rintro ⟨lg', addr, sgm, hwrite, hvalue, hget, hsize⟩
  have hpos : (0 : Int) < buf.1.length := by omega
  have hlt : lg.size % 2 ^ 32 < 2 ^ 32 := Nat.mod_lt _ (by decide)
  rcases Nat.eq_zero_or_pos (lg.size % 2 ^ 32) with hzero | h0
  · obtain ⟨written, lg₁, hwrite₁, -, -, hle, -⟩ := (Sizeless.mk hzero h.inv).write page buf
    rw [hwrite] at hwrite₁
    obtain ⟨rfl, -⟩ := Prod.mk.inj (Option.some.inj hwrite₁)
    omega
  · rcases Nat.lt_or_ge (lg.size % 2 ^ 32) (buf.1.length + 2 * headerSize) with hfull | hfits
    · obtain ⟨lg₁, l₁, hwrite₁, -⟩ := h.refuse h0 hmod hfull
      rw [hwrite] at hwrite₁
      have hcode : (buf.1.length : Int) = ELNOWCP := (Prod.mk.inj (Option.some.inj hwrite₁)).1
      rw [ELNOWCP] at hcode
      omega
    · obtain ⟨lg₁, addr₁, sgm₁, hwrite₁, hvalue₁, hget₁, hsize₁⟩ := h.first_size h0 hmod hne hfits
      rw [hwrite] at hwrite₁
      obtain ⟨-, rfl⟩ := Prod.mk.inj (Option.some.inj hwrite₁)
      rw [hvalue] at hvalue₁
      obtain rfl := Option.some.inj (Option.some.inj hvalue₁)
      rw [hget] at hget₁
      obtain rfl := Option.some.inj hget₁
      omega

/-- **A log size is honoured** exactly below 4 GB, for every payload that fits into a segment of
    that size. -/
theorem size_honoured_iff {page : PageSize} {size flags : Nat} {names : List (List Char)} {rc : Int}
    {lg : MqLog} {dir : Dir} {buf : Buf} (h0 : 0 < size) (hnames : Lists names Dir.empty)
    (hopen : mqlogOpen page .ok Dir.empty names size flags = some (rc, some lg, dir))
    (hbuf : 1 ≤ buf.1.length) (hfits : buf.1.length + 2 * headerSize ≤ size) :
    HonoursSize page lg buf ↔ size < 2 ^ 32 := by
  obtain ⟨hmod, hgrow, rfl, -⟩ := mqlogOpen_growing hnames hopen
  have hne : buf.1.length ≠ 0 := Nat.ne_of_gt hbuf
  constructor
  · intro hhonours
    by_contra hbig
    exact hgrow.not_honoursSize hmod hne (Nat.le_of_not_lt hbig) hhonours
  · intro hsmall
    have hsize : lg.size % 2 ^ 32 = lg.size := Nat.mod_eq_of_lt hsmall
    obtain ⟨lg', addr, sgm, hwrite, hvalue, hget, hsgm⟩ := hgrow.first_size
      (by rw [hsize]; exact h0) hmod hne (by rw [hsize]; exact hfits)
    exact ⟨lg', addr, sgm, hwrite, hvalue, hget, hsgm.trans hsize⟩

/-- The largest size below 4 GB, and one byte. -/
theorem size_honoured_iff_of_largest :
    ∃ lg, mqlogOpen page4096 .ok Dir.empty [] (2 ^ 32 - 4096) mqlogRddrt =
        some (0, some lg, Dir.empty) ∧
      (HonoursSize page4096 lg (bytes 1 0x61 (by decide)) ↔ 2 ^ 32 - 4096 < 2 ^ 32) := by
  have hmod : (2 ^ 32 - 4096) % page4096.bytes = 0 := by decide
  obtain ⟨lg, hopen, -⟩ := mqlogOpen_empty mqlogRddrt hmod lists_nil
  refine ⟨lg, hopen, size_honoured_iff (by decide) lists_nil hopen ?_ ?_⟩
  · rw [length_bytes]
  · rw [length_bytes]
    decide

/-- A log of 4 GB and one page a segment is opened, and its first segment has one page. -/
theorem size_truncated :
    ∃ lg lg' addr sgm, mqlogOpen page4096 .ok Dir.empty [] (2 ^ 32 + 4096) mqlogRddrt =
        some (0, some lg, Dir.empty) ∧
      mqlogWrite page4096 lg (bytes 1 0x61 (by decide)) = some (1, lg') ∧
      mbptreeLastValue lg'.index = some (some addr) ∧ lg'.segs.get addr = some sgm ∧
      sgm.size = 4096 ∧ ¬ HonoursSize page4096 lg (bytes 1 0x61 (by decide)) := by
  have hmod : (2 ^ 32 + 4096) % page4096.bytes = 0 := by decide
  obtain ⟨lg, hopen, hgrow, hsize, -⟩ := mqlogOpen_empty mqlogRddrt hmod lists_nil
  have htrunc : lg.size % 2 ^ 32 = 4096 := by
    rw [hsize]
    decide
  have hne : (bytes 1 0x61 (by decide)).1.length ≠ 0 := by
    rw [length_bytes]
    decide
  have hmod' : lg.size % 2 ^ 32 % page4096.bytes = 0 := by
    rw [htrunc]
    decide
  obtain ⟨lg', addr, sgm, hwrite, hvalue, hget, hsgm⟩ := hgrow.first_size (by rw [htrunc]; decide)
    hmod' hne (by rw [htrunc, length_bytes]; decide)
  rw [length_bytes] at hwrite
  exact ⟨lg, lg', addr, sgm, hopen, hwrite, hvalue, hget, hsgm.trans htrunc,
    hgrow.not_honoursSize hmod' hne (by rw [hsize]; decide)⟩

end Mqlog
