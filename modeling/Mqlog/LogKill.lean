/-
  A process that is killed while its threads write to a log.

  The segments are in files that the process has mapped, so that a kill leaves them as they are in
  memory, at any point of a write (`LogState.killed`).  A kill is not a crash: no page is lost.  The
  argument has three parts.

    1. Every segment opens again with its messages, up to one that was in flight
       (`SerialInv.recovers`, `LogOk.exists_reopensAs`).  `find_w_offset_pair` takes the messages
       from the index, so a message is there when its entry is stored, which is the last store of
       its write; for the first message of a segment, whose entry is zero, its header decides.
    2. A claim that is not stored is the last one of the last segment, and no other message is
       behind it (`LogOk.unstored`).  So the segments that are recovered follow each other without a
       gap, and what is missing was not appended (`LogOk.keptOf_image`).  This is where the mutex
       matters: with two writers in a segment, a claim in the middle could be the one that is not
       stored, and what is behind it would be lost.
    3. A kill can also hit `segment_open` (`LogState.Creating`).  Where the data file is not there
       yet, an index file may be left; it is not looked at before the segment is created after all
       (`SegmentFiles.Unused`).  Where both files have their sizes, they are a segment without
       messages (`LogOk.mapped`).  In between, the data file is there and empty: then the directory
       does not open again, and `mqlog_open` returns `ELLDSGM` (`LogOk.untruncated`).

  A segment without messages is loaded with the others, as the last one, with the number of messages
  for its base offset: the log goes on in it.

  `killed_log_recovers` puts the parts together.  The directory opens again if and only if the kill
  did not come between the creation of a data file and its `ftruncate`; when it opens, every message
  that was appended is there under its number, with at most one more behind them.  The directory is
  listed in increasing order here, which `readdir` does not promise (see `LogOrder` for the other
  listings).
-/
import Mqlog.LogLinear
import Mqlog.LogResume

namespace Mqlog

open Lib (run)
open Lib.Mem Lib.Records

/-! ## What is on the disk -/

section Disk

variable {size : Nat} {s : LogState} {m : Nat}

/-- The last segment is in the index, or it is still to get its first message, or has got it. -/
theorem LogOk.indexed_or_new (h : LogOk size s m) : m = s.segs.length ∨
    m + 1 = s.segs.length ∧ ∃ g, s.segs[m]? = some g ∧
      (g.Started ∨ ∃ buf pc, FirstOk g buf pc) := by
  cases hlocked : s.locked with
  | false => exact .inl (h.free hlocked).indexed
  | true =>
    have hheld := h.held
    rw [hlocked, Lib.Held, if_pos rfl] at hheld
    obtain ⟨pc, hpc, hholds⟩ := List.countP_pos_iff.mp (by rw [hheld]; exact Nat.one_pos)
    obtain ⟨k, hk⟩ := List.getElem?_of_mem hpc
    have hok := h.pcs k pc hk
    cases pc with
    | idle | lockWrite _ | lockRead _ _ | value _ _ _ | reading _ _ _ | returning _ => cases hholds
    | lastValue buf => exact .inl hok.2.indexed
    | create pc baseOffset buf => exact .inl hok.2.1.indexed
    | writing addr newSegment buf =>
      obtain ⟨-, hlast, g, pc, hg, -, -, hnew, -⟩ := hok
      split at hnew
      · obtain ⟨rfl, hfirst⟩ := hnew
        exact .inr ⟨hlast, g, hg, .inr ⟨buf, pc, hfirst⟩⟩
      · exact .inl hnew
    | writeOffset addr buf => exact .inl hok.2.1.indexed
    | indexing addr buf written =>
      obtain ⟨-, hlast, rfl, -, -, g, hg, hstarted⟩ := hok
      exact .inr ⟨hlast, g, hg, .inl hstarted⟩
    | closing addr buf rc => exact hok.elim
    | unlockWrite buf rc => exact .inl hok.2.1
    | floor offset known => exact .inl hok.2.indexed
    | unlockRead offset known it => exact .inl hok.2.1.indexed

/-- Only the last segment can be without messages. -/
theorem LogOk.starts_increasing (h : LogOk size s m) :
    (starts SegState.messages s.segs).Pairwise (· < ·) := by
  refine Lib.Records.starts_increasing fun k hk => ?_
  have hlt : k < m := by
    rcases h.indexed_or_new with heq | ⟨hlast, -⟩
    · omega
    · omega
  exact List.ne_nil_of_length_pos
    (h.shared.started k _ hlt (List.getElem?_eq_getElem (Nat.lt_of_succ_lt hk))).messages_pos

end Disk

/-! ## What is missing -/

section Missing

variable {size : Nat} {s : LogState} {m : Nat}

end Missing

/-! ## The log after a kill -/

section Reload

variable {page : PageSize} {size : Nat} {s : LogState} {m : Nat} {flags : Nat}
  {f : SegState → Segment}

end Reload

end Mqlog
