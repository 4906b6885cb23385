/-
  What holds while threads write to a log and read it.

  The messages of the log are those of its segments in a row, and the base offset of a segment is
  the number of messages in front of it.  A thread that holds the mutex knows how far the log is
  appended to and indexed (`PcOk`); at most one thread holds it (`Held`).  Threads that do not hold
  it are readers with an iterator or a segment that they have found, and those about to return.

  The invariant `LogOk` is a conjunction of what is shared and of what each thread knows:

    1. `Shared`: the mutex, the index as a sorted list (`entries`), the segments (`SegOk`, each with
       the invariants of a segment on its own), the directory, and the two histories;
    2. `PcOk`: for each point at which a thread can be, what it may rely on there; the parameter `m`
       is the number of segments that are in the index, all of them but while one is being added;
    3. `IdleElsewhere`: a thread is in one segment at a time.

  The crux is that the two kinds of threads disturb each other in different ways, so that there are
  two relations between the state before a step of thread `k` and the one after it:

    * `LogLater` is what a thread WITHOUT the mutex relies on when another one makes a step:
      appended messages keep their numbers, segments their bases, entries of the index their places;
      what the thread knows stays true whatever the holder does (`PcOk.later`);
    * `Undisturbed` is what the HOLDER relies on: a step of a thread without the mutex claims
      nothing, stores nothing and leaves the index alone; what the holder knows stays true
      (`Undisturbed.pcOk`).

  `LogOk.next` puts them together: a step of one thread keeps the invariant when the log keeps its
  part of it, the thread knows afterwards what it has to, and the step is one of these two kinds.

  Two things are accounted for beside the threads: the files of the directory, which belong to
  segments or to the one that is being created (`LogState.bases`), and the numbers of the messages,
  each of which one write has returned with or is about to return with (`LogState.numbers`).
-/
import Mqlog.LogLaw
import Mqlog.LogThreads
import Mqlog.MbptreeStable

namespace Mqlog

open Lib (Held)
open Lib.Records

/-! ## The messages -/

/-- The messages of a segment. -/
def SegState.messages (g : SegState) : List Buf := payloads g.claims

namespace LogState

/-- All messages, in the order of their numbers. -/
def messages (s : LogState) : List Buf := image SegState.messages s.segs

/-- The number of messages in front of a segment. -/
def base (s : LogState) (j : Nat) : Nat := start SegState.messages s.segs j

/-- The entries of an index with the first `m` segments. -/
def entries (s : LogState) (m : Nat) : List Data := (List.range m).map fun j => ⟨s.base j, j⟩

/-- One segment more in the index. -/
theorem entries_succ (s : LogState) (m : Nat) :
    s.entries (m + 1) = s.entries m ++ [⟨s.base m, m⟩] := by
  rw [entries, List.range_succ, List.map_append]
  rfl

/-- A new segment starts behind all messages. -/
theorem base_length (s : LogState) : s.base s.segs.length = s.messages.length := start_length s.segs

end LogState

/-! ## What the threads carry -/

/-- The segment that the thread is creating. -/
def LogPc.creates : LogPc → Option Nat
  | .create _ baseOffset _ => some baseOffset
  | _ => none

/-- The number that the thread returns with. -/
def LogPc.number : LogPc → Option Nat
  | .returning r => r.number
  | _ => none

namespace LogState

/-- The base offsets of the segments, and of the ones that are being created. -/
def bases (s : LogState) : List Nat :=
  starts SegState.messages s.segs ++ s.threads.filterMap LogPc.creates

/-- The numbers of the messages whose writers have returned, or are about to. -/
def numbers (s : LogState) : List Nat :=
  s.returned.filterMap LogReturned.number ++ s.threads.filterMap LogPc.number

end LogState

/-- A thread goes from `pc` to `pc'`, creates no segment before and returns with no number. -/
structure Passes (pc pc' : LogPc) : Prop where
  creates : pc.creates = none
  number : pc.number = none
  number' : pc'.number = none

section Carry

variable {s s' : LogState} {k : Nat} {pc pc' : LogPc}

/-- The files in the directory stay accounted for. -/
theorem LogState.bases_subset (hk : s.threads[k]? = some pc)
    (hthreads : s'.threads = s.threads.set k pc')
    (hcreates : pc.creates = none ∨ pc'.creates = pc.creates)
    (hstarts : starts SegState.messages s'.segs = starts SegState.messages s.segs) :
    s.bases ⊆ s'.bases := by
  rw [LogState.bases, LogState.bases, hstarts, hthreads]
  exact List.append_subset.mpr ⟨List.subset_append_left .., fun b hb =>
    List.mem_append_right _ (Lib.filterMap_subset_set _ hk hcreates hb)⟩

/-- No number is given out. -/
theorem LogState.numbers_perm (hk : s.threads[k]? = some pc)
    (hthreads : s'.threads = s.threads.set k pc') (hreturned : s'.returned = s.returned)
    (hnumber : pc.number = none) (hnumber' : pc'.number = none) :
    s'.numbers.Perm s.numbers := by
  have hperm := Lib.filterMap_set_perm LogPc.number hk pc'
  rw [hnumber, hnumber'] at hperm
  rw [LogState.numbers, LogState.numbers, hthreads, hreturned]
  exact hperm.append_left _

end Carry

/-! ## What the threads know -/

/-- The thread holds the mutex. -/
def LogPc.holds : LogPc → Bool
  | .idle | .lockWrite _ | .lockRead _ _ | .value _ _ _ | .reading _ _ _ | .returning _ => false
  | _ => true

/-- The segment that the thread is in. -/
def LogPc.addr : LogPc → Option Nat
  | .writing addr _ _ => some addr
  | .reading _ _ addr => some addr
  | _ => none

/-- A thread without a segment is in none. -/
theorem LogPc.addr_ne {pc : LogPc} (h : pc.addr = none) (j : Nat) : pc.addr ≠ some j := by
  rw [h]
  exact (Option.some_ne_none j).symm

/-- The payload fits into a segment. -/
def FitsLog (size : Nat) (buf : Buf) : Prop := 0 < buf.1.length ∧
    buf.1.length + 2 * headerSize ≤ size

/-- All segments are in the index, and no message is in flight. -/
structure LogState.Whole (s : LogState) (m : Nat) : Prop where
  indexed : m = s.segs.length
  messages_eq : s.messages = s.appended

/-- The message with the relative offset `i` is stored. -/
def SegState.Kept (g : SegState) (i : Nat) : Prop :=
  ∃ c ∈ g.claims, c.frame ≠ none ∧ c.base.index = i ∧ g.left c = []

/-- The first message is stored. -/
def SegState.Started (g : SegState) : Prop := ∃ buf, g.Shown 0 0 buf

/-- The iterator is at the entry of segment number `j`. -/
def LogState.At (s : LogState) (iterator : LeafIterator) (j : Nat) : Prop :=
  ∃ before post, Stands branchFactor s.index iterator before (⟨s.base j, j⟩ :: post)

/-- What a call returns: a write the number of its message, a read the message that it asked for, or
    that this was not appended when it was called. -/
def LogReturnedOk (s : LogState) : LogReturned → Prop
  | .write buf rc number =>
    (number = none ∧ (rc = ELLOCK ∨ rc = 0 ∧ buf.1.length = 0)) ∨
      ∃ n, number = some n ∧ rc = (buf.1.length : Int) ∧ s.appended[n]? = some buf
  | .read offset known rc fr => rc = ELLOCK ∨ (rc = ELNORD ∧ known ≤ offset) ∨
      ∃ addr g hdr buf, s.segs[addr]? = some g ∧ s.base addr ≤ offset ∧
        g.Shown (offset - s.base addr) hdr buf ∧ rc = (buf.1.length : Int) ∧
        fr = some (addr, ⟨some hdr, some (hdr + headerSize)⟩)

/-- What thread `k` knows; the first `m` segments are in the index. -/
def PcOk (size : Nat) (s : LogState) (m k : Nat) : LogPc → Prop
  | .idle => True
  | .lockWrite buf => FitsLog size buf
  | .lastValue buf => FitsLog size buf ∧ s.Whole m
  | .create pc baseOffset buf => FitsLog size buf ∧ s.Whole m ∧ baseOffset = s.messages.length ∧
      s.dir.files baseOffset = pc.files size
  | .writing addr newSegment buf =>
    FitsLog size buf ∧ addr + 1 = s.segs.length ∧ ∃ g pc, s.segs[addr]? = some g ∧
      g.threads[k]? = some pc ∧ WriterOk g buf pc ∧
      (if newSegment then m = addr ∧ FirstOk g buf pc else m = s.segs.length) ∧
      s.messages = s.appended ++ pc.inFlight
  | .writeOffset addr buf => FitsLog size buf ∧ s.Whole m ∧ addr + 1 = s.segs.length
  | .indexing addr buf written =>
    FitsLog size buf ∧ addr + 1 = s.segs.length ∧ m = addr ∧ written = (buf.1.length : Int) ∧
      s.messages = s.appended ++ [buf] ∧ ∃ g, s.segs[addr]? = some g ∧ g.Started
  | .closing _ _ _ => False
  | .unlockWrite buf rc =>
    FitsLog size buf ∧ m = s.segs.length ∧ rc = (buf.1.length : Int) ∧
      s.messages = s.appended ++ [buf]
  | .lockRead _ known => known ≤ s.appended.length
  | .floor _ known => known ≤ s.appended.length ∧ s.Whole m
  | .unlockRead offset known iterator =>
    known ≤ s.appended.length ∧ s.Whole m ∧ (m = 0 ∧ iterator = ⟨0, 0⟩ ∨
      ∃ j, j < m ∧ s.base j ≤ offset ∧ (j + 1 < m → offset < s.base (j + 1)) ∧ s.At iterator j)
  | .value offset known iterator =>
    ∃ j g, j < m ∧ s.segs[j]? = some g ∧ s.base j ≤ offset ∧
      (offset < known → g.Kept (offset - s.base j)) ∧ s.At iterator j
  | .reading offset known addr =>
    ∃ g pc, addr < m ∧ s.segs[addr]? = some g ∧ s.base addr ≤ offset ∧ g.threads[k]? = some pc ∧
      pc.reads = some (offset - s.base addr) ∧
      (offset < known → ∃ c ∈ g.claims, c.frame ≠ none ∧ g.left c = [] ∧ Sees c pc)
  | .returning r => LogReturnedOk s r

/-- The thread is idle in the segments that it is not in. -/
def IdleElsewhere (s : LogState) (k : Nat) (pc : LogPc) : Prop :=
  ∀ (j : Nat) (g : SegState), s.segs[j]? = some g → pc.addr ≠ some j → g.threads[k]? = some .idle

/-! ## The invariant -/

/-- A segment with base offset `b`, and `n` threads. -/
structure SegOk (size n b : Nat) (g : SegState) : Prop where
  serial : SerialInv size (Segment.fresh b size sgmRddrt) g
  publish : PublishInv g
  length_eq : g.threads.length = n

/-- The part of the log that the threads share. -/
structure Shared (size : Nat) (s : LogState) (m : Nat) : Prop where
  size_eq : s.size = size
  flags_eq : s.flags = mqlogRddrt
  tree : TreeHolds branchFactor s.index (s.entries m)
  segs : ∀ (j : Nat) (g : SegState), s.segs[j]? = some g → SegOk size s.threads.length (s.base j) g
  started : ∀ (j : Nat) (g : SegState), j < m → s.segs[j]? = some g → g.Started
  le : m ≤ s.segs.length
  only : s.dir.Only s.bases
  returned : ∀ r ∈ s.returned, LogReturnedOk s r
  numbers : s.numbers.Perm (List.range s.appended.length)

/-- What holds of every state of a log; the first `m` segments are in the index. -/
structure LogOk (size : Nat) (s : LogState) (m : Nat) : Prop where
  shared : Shared size s m
  held : Held LogPc.holds s.threads s.locked
  free : s.locked = false → s.Whole m
  pcs : ∀ (k : Nat) (pc : LogPc), s.threads[k]? = some pc → PcOk size s m k pc
  placed : ∀ (k : Nat) (pc : LogPc), s.threads[k]? = some pc → IdleElsewhere s k pc

/-! ## What a step of one thread leaves to the others -/

section Segments

variable {g g' : SegState} {k : Nat} {act : SegAct}

/-- A step moves one thread. -/
theorem segStep_threads (h : segStep g (k, act) = some g') :
    ∃ pc, g'.threads = g.threads.set k pc := by
  rcases segStep_effect h with ⟨pc, hmoves⟩ | ⟨c, -, rfl⟩ | ⟨buf, -, -, rfl⟩ | ⟨buf, -, -, rfl⟩ |
    ⟨c, st, rest, -, rfl⟩
  · exact ⟨pc, hmoves.threads_eq⟩
  · exact ⟨_, rfl⟩
  · exact ⟨_, rfl⟩
  · exact ⟨_, rfl⟩
  · exact ⟨_, rfl⟩

/-- The others stay where they are in the segment. -/
theorem segStep_others (h : segStep g (k, act) = some g') {i : Nat} (hi : i ≠ k) :
    g'.threads[i]? = g.threads[i]? := by
  obtain ⟨pc, hthreads⟩ := segStep_threads h
  rw [hthreads, List.getElem?_set_ne (Ne.symm hi)]

/-- A segment that holds a message keeps it. -/
theorem SegState.Started.later (h : g.Started) (hlater : Later g g') : g'.Started :=
  h.imp fun _ hshown => hshown.later hlater

/-- A stored message stays stored. -/
theorem SegState.Kept.later {i : Nat} (h : g.Kept i) (hlater : Later g g') : g'.Kept i := by
  obtain ⟨c, hc, hframe, hindex, hleft⟩ := h
  have hle := hlater.left_le c hc
  rw [hleft] at hle
  exact ⟨c, hlater.claims c hc, hframe, hindex, List.length_eq_zero_iff.mp (Nat.le_zero.mp hle)⟩

/-- A segment that has started has a message. -/
theorem SegState.Started.messages_pos (h : g.Started) : 0 < g.messages.length := by
  obtain ⟨buf, c, hc, hframe, -, -⟩ := h
  exact List.length_pos_of_mem (List.mem_filterMap.mpr ⟨c, hc, hframe⟩)

/-- **A step inside a segment** keeps what holds of the segment. -/
theorem SegOk.step {size n b : Nat} (h : SegOk size n b g) (hsmall : size < 2 ^ 32)
    (hreads : readsSealed g (k, act) = false) (hstep : segStep g (k, act) = some g') :
    SegOk size n b g' ∧ Later g g' := by
  have hwrap := h.serial.wrapsClaim_eq hsmall hstep
  obtain ⟨pc, hthreads⟩ := segStep_threads hstep
  refine ⟨⟨h.serial.step hsmall hreads hstep, h.publish.step hwrap hstep, ?_⟩,
    (h.serial.claims.step hwrap hstep).2⟩
  rw [hthreads, List.length_set]
  exact h.length_eq

/-- The base offset does not change. -/
theorem SegOk.base_eq {size n b : Nat} (h : SegOk size n b g) : g.sgm.baseOffset = b :=
  congrArg Segment.baseOffset h.serial.cleared

/-- The write offset counts the messages. -/
theorem SegOk.count_eq {size n b : Nat} (h : SegOk size n b g) :
    g.sgm.wOffset.index = g.messages.length := by
  rw [h.serial.offset]
  rfl

end Segments

/-- What another thread than the holder can rely on when thread `k` makes a step. -/
structure LogLater (s s' : LogState) (m m' k : Nat) : Prop where
  le : m ≤ m'
  appended : s.appended <+: s'.appended
  base_eq : ∀ j, j < s.segs.length → s'.base j = s.base j
  segs : ∀ (j : Nat) (g : SegState), s.segs[j]? = some g → ∃ g', s'.segs[j]? = some g' ∧
    Later g g' ∧
    ∀ i, i ≠ k → g'.threads[i]? = g.threads[i]?
  fresh : ∀ (j : Nat) (g' : SegState), s.segs.length ≤ j → s'.segs[j]? = some g' →
    ∀ i, i ≠ k → i < s.threads.length → g'.threads[i]? = some .idle
  stands : ∀ (it : LeafIterator) (before after : List Data),
    Stands branchFactor s.index it before after →
    ∃ new, Stands branchFactor s'.index it before (after ++ new)

/-- What the holder can rely on when thread `k` makes a step without the mutex. -/
structure Undisturbed (s s' : LogState) (k : Nat) : Prop where
  index_eq : s'.index = s.index
  dir_eq : s'.dir = s.dir
  appended_eq : s'.appended = s.appended
  length_eq : s'.segs.length = s.segs.length
  segs : ∀ (j : Nat) (g : SegState), s.segs[j]? = some g → ∃ g', s'.segs[j]? = some g' ∧
    g'.sgm = g.sgm ∧ g'.claims = g.claims ∧ (∀ c, g'.left c = g.left c) ∧
    ∀ i, i ≠ k → g'.threads[i]? = g.threads[i]?

section Others

variable {size : Nat} {s s' : LogState} {m m' k i : Nat} {pc : LogPc}

/-- Segments keep their base offsets. -/
theorem LogLater.lt (h : LogLater s s' m m' k) {j : Nat} {g : SegState} (hg : s.segs[j]? = some g) :
    s'.base j = s.base j :=
  h.base_eq j (List.getElem?_eq_some_iff.mp hg).1

/-- An appended message keeps its number. -/
theorem LogLater.appended_get (h : LogLater s s' m m' k) {n : Nat} {buf : Buf}
    (hbuf : s.appended[n]? = some buf) : s'.appended[n]? = some buf := by
  obtain ⟨new, happended⟩ := h.appended
  rw [← happended, List.getElem?_append_left (List.getElem?_eq_some_iff.mp hbuf).1]
  exact hbuf

/-- An iterator stays on its entry. -/
theorem LogLater.at_entry (h : LogLater s s' m m' k) {it : LeafIterator} {j : Nat} {g : SegState}
    (hg : s.segs[j]? = some g) (hat : s.At it j) : s'.At it j := by
  obtain ⟨before, post, hstands⟩ := hat
  obtain ⟨new, hstands'⟩ := h.stands it before _ hstands
  refine ⟨before, post ++ new, ?_⟩
  rw [h.lt hg]
  exact hstands'

/-- What a call returns stays true. -/
theorem LogReturnedOk.later {r : LogReturned} (h : LogReturnedOk s r)
    (hlater : LogLater s s' m m' k) :
    LogReturnedOk s' r := by
  cases r with
  | write buf rc number =>
    refine h.imp_right ?_
    rintro ⟨n, hnumber, hrc, hbuf⟩
    exact ⟨n, hnumber, hrc, hlater.appended_get hbuf⟩
  | read offset known rc fr =>
    rcases h with hlock | hnone | ⟨addr, g, hdr, buf, hg, hle, hshown, hrc, hfr⟩
    · exact .inl hlock
    · exact .inr (.inl hnone)
    · obtain ⟨g', hg', hg'later, -⟩ := hlater.segs addr g hg
      refine .inr (.inr ⟨addr, g', hdr, buf, hg', ?_, ?_, hrc, hfr⟩)
      · rw [hlater.lt hg]
        exact hle
      · rw [hlater.lt hg]
        exact hshown.later hg'later

/-- **What a thread without the mutex knows stays true.** -/
theorem PcOk.later (h : PcOk size s m i pc) (hlater : LogLater s s' m m' k) (hpc : pc.holds = false)
    (hi : i ≠ k) : PcOk size s' m' i pc := by
  cases pc with
  | lastValue _ | create _ _ _ | writing _ _ _ | writeOffset _ _ | indexing _ _ _ | closing _ _ _
  | unlockWrite _ _ | floor _ _ | unlockRead _ _ _ => cases hpc
  | idle => exact trivial
  | lockWrite buf => exact h
  | lockRead offset known => exact Nat.le_trans h hlater.appended.length_le
  | returning r => exact LogReturnedOk.later h hlater
  | value offset known it =>
    obtain ⟨j, g, hj, hg, hle, hkept, hat⟩ := h
    obtain ⟨g', hg', hg'later, -⟩ := hlater.segs j g hg
    refine ⟨j, g', Nat.lt_of_lt_of_le hj hlater.le, hg', ?_, ?_, hlater.at_entry hg hat⟩
    · rw [hlater.lt hg]
      exact hle
    · rw [hlater.lt hg]
      exact fun hknown => (hkept hknown).later hg'later
  | reading offset known addr =>
    obtain ⟨g, pc, haddr, hg, hle, hthread, hreads, hsees⟩ := h
    obtain ⟨g', hg', hg'later, hothers⟩ := hlater.segs addr g hg
    refine ⟨g', pc, Nat.lt_of_lt_of_le haddr hlater.le, hg', ?_, (hothers i hi).trans hthread,
      ?_, ?_⟩
    · rw [hlater.lt hg]
      exact hle
    · rw [hlater.lt hg]
      exact hreads
    · intro hknown
      obtain ⟨c, hc, hframe, hleft, hsees⟩ := hsees hknown
      have hle := hg'later.left_le c hc
      rw [hleft] at hle
      exact ⟨c, hg'later.claims c hc, hframe, List.length_eq_zero_iff.mp (Nat.le_zero.mp hle),
        hsees⟩

/-- A thread stays outside the segments that it is not in. -/
theorem IdleElsewhere.later (h : IdleElsewhere s i pc) (hlater : LogLater s s' m m' k) (hi : i ≠ k)
    (hlt : i < s.threads.length) : IdleElsewhere s' i pc := by
  intro j g' hg' hne
  rcases Nat.lt_or_ge j s.segs.length with hj | hj
  · obtain ⟨g'', hg'', -, hothers⟩ := hlater.segs j _ (List.getElem?_eq_getElem hj)
    rw [hg'] at hg''
    obtain rfl := Option.some.inj hg''
    rw [hothers i hi]
    exact h j _ (List.getElem?_eq_getElem hj) hne
  · exact hlater.fresh j g' hj hg' i hi hlt

namespace Undisturbed

/-- The segments keep their messages. -/
theorem messages_map (h : Undisturbed s s' k) :
    s'.segs.map SegState.messages = s.segs.map SegState.messages := by
  refine List.ext_getElem? fun j => ?_
  rw [List.getElem?_map, List.getElem?_map]
  rcases Nat.lt_or_ge j s.segs.length with hj | hj
  · obtain ⟨g', hg', -, hclaims, -⟩ := h.segs j _ (List.getElem?_eq_getElem hj)
    rw [hg', List.getElem?_eq_getElem hj, Option.map_some, Option.map_some, SegState.messages,
      hclaims]
    rfl
  · rw [List.getElem?_eq_none hj, List.getElem?_eq_none (by rw [h.length_eq]; exact hj)]

/-- The log keeps its messages. -/
theorem messages_eq (h : Undisturbed s s' k) : s'.messages = s.messages :=
  image_congr h.messages_map

/-- The segments keep their base offsets. -/
theorem base_eq (h : Undisturbed s s' k) (j : Nat) : s'.base j = s.base j :=
  start_congr h.messages_map j

/-- A log that is whole stays so. -/
theorem whole (h : Undisturbed s s' k) (hwhole : s.Whole m) : s'.Whole m :=
  ⟨hwhole.indexed.trans
    h.length_eq.symm, by rw [h.messages_eq, h.appended_eq]; exact hwhole.messages_eq⟩

/-- An iterator stays on its entry. -/
theorem at_entry (h : Undisturbed s s' k) {it : LeafIterator} {j : Nat} (hat : s.At it j) :
    s'.At it j := by
  rw [LogState.At, h.index_eq, h.base_eq]
  exact hat

/-- What a thread without the mutex relies on is part of what the holder does. -/
theorem later (h : Undisturbed s s' k) : LogLater s s' m m k where
  le := Nat.le_refl m
  appended := h.appended_eq ▸ List.prefix_rfl
  base_eq j _ := h.base_eq j
  segs j g hg := by
    obtain ⟨g', hg', hsgm, hclaims, hleft, hothers⟩ := h.segs j g hg
    exact ⟨g', hg', .of_eq hsgm hclaims hleft, hothers⟩
  fresh j g' hj hg' := by
    have hlt := (List.getElem?_eq_some_iff.mp hg').1
    rw [h.length_eq] at hlt
    omega
  stands it before after hstands := by
    refine ⟨[], ?_⟩
    rw [h.index_eq, List.append_nil]
    exact hstands

/-- **What the holder of the mutex knows stays true.** -/
theorem pcOk (h : Undisturbed s s' k) (hpc : PcOk size s m i pc) (hi : i ≠ k) :
    PcOk size s' m i pc := by
  by_cases hholds : pc.holds = true
  · cases pc with
    | idle | lockWrite _ | lockRead _ _ | value _ _ _ | reading _ _ _ | returning _ => cases hholds
    | lastValue buf => exact ⟨hpc.1, h.whole hpc.2⟩
    | create pc baseOffset buf =>
      obtain ⟨hfits, hwhole, hbase, hfiles⟩ := hpc
      exact ⟨hfits,
        h.whole hwhole, by rw [h.messages_eq]; exact hbase, by rw [h.dir_eq]; exact hfiles⟩
    | writing addr newSegment buf =>
      obtain ⟨hfits, hlast, g, pc, hg, hthread, hwriter, hnew, hmessages⟩ := hpc
      obtain ⟨g', hg', hsgm, hclaims, -, hothers⟩ := h.segs addr g hg
      refine ⟨hfits, hlast.trans h.length_eq.symm, g', pc, hg', (hothers i hi).trans hthread,
        hwriter.congr hsgm hclaims, ?_, by rw [h.messages_eq, h.appended_eq]; exact hmessages⟩
      split at hnew
      · rename_i hnewSegment
        rw [if_pos hnewSegment]
        exact ⟨hnew.1, hnew.2.congr hclaims⟩
      · rename_i hnewSegment
        rw [if_neg hnewSegment]
        exact hnew.trans h.length_eq.symm
    | writeOffset addr buf => exact ⟨hpc.1, h.whole hpc.2.1, hpc.2.2.trans h.length_eq.symm⟩
    | indexing addr buf written =>
      obtain ⟨hfits, hlast, hindexed, hwritten, hmessages, g, hg, hstarted⟩ := hpc
      obtain ⟨g', hg', hsgm, hclaims, hleft, -⟩ := h.segs addr g hg
      exact ⟨hfits, hlast.trans h.length_eq.symm, hindexed, hwritten,
        by rw [h.messages_eq, h.appended_eq]; exact hmessages, g', hg',
          hstarted.later (.of_eq hsgm hclaims hleft)⟩
    | closing addr buf rc => exact hpc.elim
    | unlockWrite buf rc =>
      obtain ⟨hfits, hindexed, hrc, hmessages⟩ := hpc
      exact ⟨hfits, hindexed.trans h.length_eq.symm,
        hrc, by rw [h.messages_eq, h.appended_eq]; exact hmessages⟩
    | floor offset known => exact ⟨by rw [h.appended_eq]; exact hpc.1, h.whole hpc.2⟩
    | unlockRead offset known it =>
      obtain ⟨hknown, hwhole, hfound⟩ := hpc
      refine ⟨by rw [h.appended_eq]; exact hknown, h.whole hwhole, ?_⟩
      rcases hfound with hnone | ⟨j, hj, hle, hnext, hat⟩
      · exact .inl hnone
      · refine .inr ⟨j, hj, ?_, ?_, h.at_entry hat⟩
        · rw [h.base_eq]
          exact hle
        · rw [h.base_eq]
          exact hnext
  · rw [Bool.not_eq_true] at hholds
    exact hpc.later (h.later (m := m)) hholds hi

end Undisturbed

end Others

/-! ## The invariant after a step -/

section Next

variable {size : Nat} {s s' : LogState} {m m' k : Nat} {pc pc' : LogPc}

/-- **A step of one thread keeps the invariant** when the log keeps its part of it, the thread knows
    afterwards what it has to, and so does the holder of the mutex if that is another thread. -/
theorem LogOk.next (h : LogOk size s m) (hshared : Shared size s' m')
    (hthreads : s'.threads = s.threads.set k pc')
    (hheld : Held LogPc.holds (s.threads.set k pc') s'.locked) (hfree : s'.locked = false →
      s'.Whole m') (hpc : PcOk size s' m' k pc') (hidle : IdleElsewhere s' k pc')
    (hlater : LogLater s s' m m' k)
    (hothers : ∀ (i : Nat) (pc : LogPc), i ≠ k → s.threads[i]? = some pc → pc.holds = true →
      PcOk size s' m' i pc) : LogOk size s' m' where
  shared := hshared
  held := by
    rw [hthreads]
    exact hheld
  free := hfree
  pcs i pc hi := by
    rw [hthreads, List.getElem?_set] at hi
    split at hi
    · rename_i hki
      split at hi
      · obtain rfl := Option.some.inj hi
        rw [← hki]
        exact hpc
      · cases hi
    · rename_i hki
      by_cases hholds : pc.holds = true
      · exact hothers i pc (Ne.symm hki) hi hholds
      · exact (h.pcs i pc hi).later hlater (by rwa [Bool.not_eq_true] at hholds) (Ne.symm hki)
  placed i pc hi := by
    rw [hthreads, List.getElem?_set] at hi
    split at hi
    · rename_i hki
      split at hi
      · obtain rfl := Option.some.inj hi
        rw [← hki]
        exact hidle
      · cases hi
    · rename_i hki
      exact (h.placed i pc hi).later hlater (Ne.symm hki) (List.getElem?_eq_some_iff.mp hi).1

/-- While a thread holds the mutex, the mutex is not free. -/
theorem LogOk.not_free (h : LogOk size s m) (hk : s.threads[k]? = some pc)
    (hholds : pc.holds = true) :
    s.locked ≠ false := by
  rw [h.held.locked_eq hk hholds]
  exact Bool.noConfusion

/-- A step of the holder. -/
theorem LogOk.next_holder (h : LogOk size s m) (hk : s.threads[k]? = some pc)
    (hholds : pc.holds = true) (hshared : Shared size s' m')
    (hthreads : s'.threads = s.threads.set k pc')
    (hheld : Held LogPc.holds (s.threads.set k pc') s'.locked)
    (hfree : s'.locked = false → s'.Whole m') (hpc : PcOk size s' m' k pc')
    (hidle : IdleElsewhere s' k pc') (hlater : LogLater s s' m m' k) :
    LogOk size s' m' :=
  h.next hshared hthreads hheld hfree hpc hidle hlater fun _ _ hi hpci hholdsi =>
    absurd (h.held.unique hpci hk hholdsi hholds) hi

/-- A step of a thread without the mutex. -/
theorem LogOk.next_undisturbed (h : LogOk size s m) (hshared : Shared size s' m)
    (hthreads : s'.threads = s.threads.set k pc')
    (hheld : Held LogPc.holds (s.threads.set k pc') s'.locked) (hfree : s'.locked = false →
      s'.Whole m) (hpc : PcOk size s' m k pc') (hidle : IdleElsewhere s' k pc')
    (hund : Undisturbed s s' k) : LogOk size s' m :=
  h.next hshared hthreads hheld hfree hpc hidle hund.later fun i pci hi hpci _ =>
    hund.pcOk (h.pcs i pci hpci) hi

/-- The index and the segments are the same. -/
structure SameSegs (s s' : LogState) : Prop where
  size_eq : s'.size = s.size
  flags_eq : s'.flags = s.flags
  index_eq : s'.index = s.index
  segs_eq : s'.segs = s.segs

/-- The log is the same but for its threads and the mutex. -/
structure SameLog (s s' : LogState) : Prop extends SameSegs s s' where
  dir_eq : s'.dir = s.dir
  appended_eq : s'.appended = s.appended
  returned_eq : s'.returned = s.returned

namespace SameSegs

/-- The segments keep their base offsets. -/
theorem base_eq (h : SameSegs s s') (j : Nat) : s'.base j = s.base j := by
  rw [LogState.base, h.segs_eq]
  rfl

/-- Such a step is one that the others can live with. -/
theorem later (h : SameSegs s s') (happended : s.appended <+: s'.appended) :
    LogLater s s' m m k where
  le := Nat.le_refl m
  appended := happended
  base_eq j _ := h.base_eq j
  segs j g hg := ⟨g, by rw [h.segs_eq]; exact hg, .of_eq rfl rfl fun _ => rfl, fun _ _ => rfl⟩
  fresh j g' hj hg' := by
    rw [h.segs_eq] at hg'
    exact absurd (List.getElem?_eq_some_iff.mp hg').1 (Nat.not_lt.mpr hj)
  stands it before after hstands := by
    refine ⟨[], ?_⟩
    rw [h.index_eq, List.append_nil]
    exact hstands

/-- What all threads share holds on. -/
theorem shared (h : SameSegs s s') (hshared : Shared size s m)
    (hthreads : s'.threads = s.threads.set k pc') (honly : s'.dir.Only s'.bases)
    (hreturned : ∀ r ∈ s'.returned, LogReturnedOk s' r)
    (hnumbers : s'.numbers.Perm (List.range s'.appended.length)) : Shared size s' m where
  size_eq := h.size_eq.trans hshared.size_eq
  flags_eq := h.flags_eq.trans hshared.flags_eq
  tree := by
    have hentries : s'.entries m = s.entries m := List.map_congr_left fun j _ => by rw [h.base_eq]
    rw [h.index_eq, hentries]
    exact hshared.tree
  segs j g hg := by
    rw [h.segs_eq] at hg
    rw [hthreads, List.length_set, h.base_eq]
    exact hshared.segs j g hg
  started j g hj hg := by
    rw [h.segs_eq] at hg
    exact hshared.started j g hj hg
  le := by
    rw [h.segs_eq]
    exact hshared.le
  only := honly
  returned := hreturned
  numbers := hnumbers

end SameSegs

/-- A step that changes no more than the mutex and one thread disturbs nobody. -/
theorem SameLog.undisturbed (h : SameLog s s') : Undisturbed s s' k where
  index_eq := h.index_eq
  dir_eq := h.dir_eq
  appended_eq := h.appended_eq
  length_eq := congrArg List.length h.segs_eq
  segs j g hg := ⟨g, by rw [h.segs_eq]; exact hg, rfl, rfl, fun _ => rfl, fun _ _ => rfl⟩

/-- A thread that is in no segment is idle in all of them. -/
theorem LogOk.idle_elsewhere (h : LogOk size s m) (hk : s.threads[k]? = some pc)
    (haddr : pc.addr = none) (hsegs : s'.segs = s.segs) : IdleElsewhere s' k pc' := by
  intro j g hg _
  rw [hsegs] at hg
  exact h.placed k pc hk j g hg (LogPc.addr_ne haddr j)

/-- **A step that leaves the log as it is**, of a thread that is in no segment. -/
theorem LogOk.passes (h : LogOk size s m) (hk : s.threads[k]? = some pc) (haddr : pc.addr = none)
    (hsame : SameLog s s') (hthreads : s'.threads = s.threads.set k pc') (hpass : Passes pc pc')
    (hheld : Held LogPc.holds (s.threads.set k pc') s'.locked)
    (hfree : s'.locked = false → s'.Whole m) (hpc : PcOk size s' m k pc') : LogOk size s' m := by
  have hund : Undisturbed s s' k := hsame.undisturbed
  refine h.next_undisturbed (hsame.shared h.shared hthreads ?_ ?_ ?_) hthreads hheld hfree hpc
    (h.idle_elsewhere hk haddr hsame.segs_eq) hund
  · rw [hsame.dir_eq]
    exact h.shared.only.mono
      (LogState.bases_subset hk hthreads (.inl hpass.creates) (by rw [hsame.segs_eq]))
  · intro r hr
    rw [hsame.returned_eq] at hr
    exact (h.shared.returned r hr).later (hund.later (m := m))
  · rw [hsame.appended_eq]
    exact (LogState.numbers_perm hk hthreads hsame.returned_eq hpass.number hpass.number').trans
      h.shared.numbers

/-- **A step of the holder** that leaves the index and the segments as they are. -/
theorem LogOk.holder_passes (h : LogOk size s m) (hk : s.threads[k]? = some pc)
    (haddr : pc.addr = none) (hholds : pc.holds = true) (hsame : SameSegs s s')
    (hthreads : s'.threads = s.threads.set k pc') (happended : s.appended <+: s'.appended)
    (hreturned : s'.returned = s.returned) (honly : s'.dir.Only s'.bases)
    (hnumbers : s'.numbers.Perm (List.range s'.appended.length))
    (hheld : Held LogPc.holds (s.threads.set k pc') s'.locked)
    (hfree : s'.locked = false → s'.Whole m) (hpc : PcOk size s' m k pc') : LogOk size s' m := by
  have hlater : LogLater s s' m m k := hsame.later happended
  refine h.next_holder hk hholds (hsame.shared h.shared hthreads honly (fun r hr => ?_) hnumbers)
    hthreads
    hheld hfree hpc (h.idle_elsewhere hk haddr hsame.segs_eq) hlater
  rw [hreturned] at hr
  exact (h.shared.returned r hr).later hlater

/-- Only the holder of the mutex creates a segment. -/
theorem LogOk.creates_nil (h : LogOk size s m) (hk : s.threads[k]? = some pc)
    (hholds : pc.holds = true) (hcreates : pc.creates = none) :
    s.threads.filterMap LogPc.creates = [] := by
  rw [List.filterMap_eq_nil_iff]
  intro q hq
  obtain ⟨i, hi⟩ := List.getElem?_of_mem hq
  by_contra hne
  have hq' : q.holds = true := by
    cases q with
    | create _ _ _ => rfl
    | idle | lockWrite _ | lastValue _ | writing _ _ _ | writeOffset _ _ | indexing _ _ _
    | closing _ _ _
    | unlockWrite _ _ | lockRead _ _ | floor _ _ | unlockRead _ _ _ | value _ _ _ | reading _ _ _
    | returning _ => exact absurd rfl hne
  obtain rfl := h.held.unique hi hk hq' hholds
  rw [hk] at hi
  obtain rfl := Option.some.inj hi
  exact hne hcreates

/-! ## Segments -/

/-- A thread that holds the mutex is the only one that can be writing in a segment. -/
theorem LogOk.sole (h : LogOk size s m) (hk : s.threads[k]? = some pc) (hholds : pc.holds = true)
    {j : Nat} {g : SegState} (hg : s.segs[j]? = some g) : g.Sole k := by
  intro i pci hi hwriting
  have hlt : i < s.threads.length := by
    rw [← (h.shared.segs j g hg).length_eq]
    exact (List.getElem?_eq_some_iff.mp hi).1
  have hthread : s.threads[i]? = some s.threads[i] := List.getElem?_eq_getElem hlt
  generalize s.threads[i] = lpc at hthread
  by_cases haddr : lpc.addr = some j
  · cases lpc with
    | idle | lockWrite _ | lastValue _ | create _ _ _ | writeOffset _ _ | indexing _ _ _
    | closing _ _ _
    | unlockWrite _ _ | lockRead _ _ | floor _ _ | unlockRead _ _ _ | value _ _ _ | returning _ =>
      cases haddr
    | writing addr newSegment buf => exact h.held.unique hthread hk rfl hholds
    | reading offset known addr =>
      cases haddr
      obtain ⟨g', pc', -, hg', -, hthread', hreads, -⟩ := h.pcs i _ hthread
      rw [hg] at hg'
      obtain rfl := Option.some.inj hg'
      rw [hi] at hthread'
      obtain rfl := Option.some.inj hthread'
      rw [SegPc.not_writing_of_reads hreads] at hwriting
      cases hwriting
  · have hidle := h.placed i lpc hthread j g hg haddr
    rw [hi] at hidle
    obtain rfl := Option.some.inj hidle
    cases hwriting

/-- While the holder is in no segment, every claim is stored. -/
theorem LogOk.left_eq (h : LogOk size s m) (hk : s.threads[k]? = some pc) (hholds : pc.holds = true)
    (haddr : pc.addr = none) {j : Nat} {g : SegState} (hg : s.segs[j]? = some g) (c : Claim) :
    g.left c = [] :=
  (h.sole hk hholds hg).left_eq (h.placed k pc hk j g hg (LogPc.addr_ne haddr j))
    (fun _ _ => SegPc.noConfusion) c

end Next

end Mqlog
