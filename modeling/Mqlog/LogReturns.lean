/-
  No call on a log waits for another thread.

  `mqlog_write` and `mqlog_read` take the mutex with `pthread_mutex_trylock`, which fails instead of
  waiting; the caller gets `ELLOCK`.  The compare-and-swap of `claim` is tried once.  No loop of
  `segment_write` or `segment_read` waits for a store: a frame that is not set yet is one that is
  not there.  So a call can neither be blocked by another thread nor be held up by it for ever.

  The property has two parts, from two modules:

    1. the next step of a thread in a call is possible, in whatever state the others have left the
       log.  This is the invariant `LogOk` (`LogOk.goes`); it says so of every step but an access
       behind the end of an index file, which is the one thing that the property has to except;
    2. a call takes a bounded number of steps.  The rank of a thread bounds the steps that are left
       of its call: its own steps make it smaller and those of the others leave it as it is
       (`Advances`), so that the steps of a call are at most as many as its rank at the start
       (`Lib.countP_add_rank_le`).

  The bound (`LogAct.bound`) does not depend on the number of threads, on the number of segments or
  on what the others do.  It is linear in the length of the payload, and 10 for a read.

  A step is what `LogThreads` makes of it: an access of `segment_write` or `segment_read`, a system
  call of `segment_open`, or one whole call of an index function.  A whole call is one step here, so
  the bound counts calls of `mbptree_append` and of the other index functions, not the accesses in
  them.
-/
import Mqlog.LogLinear

namespace Mqlog

open Lib (run)

/-- What follows the call of a thread that writes a byte: another one is refused, and reads the byte
    before the first one has returned. -/
def writeByte : List (Nat × LogAct) :=
  [(0, .access), (1, .read 0)] ++ List.replicate 2 (1, .access) ++ List.replicate 20 (0, .access) ++
    (1, .read 0) :: List.replicate 10 (1, .access)

end Mqlog
