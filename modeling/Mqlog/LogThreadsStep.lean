/-
  The steps of the threads of a log outside its segments keep the invariant, and none of them
  faults.

  There is one lemma for each point at which a thread can be, in the order in which a call passes
  them, and each of them has the same form: the step goes through, and `LogOk` holds after it
  (`LogState.Goes`).  What a step does to the log sorts them:

    * it leaves the log as it is and moves the thread (`LogOk.goto`, `LogOk.call_write`,
      `LogOk.call_read`), or takes the mutex as well (`LogOk.lockWrite`, `LogOk.lockRead`);
    * it gives the mutex up: a reader takes an iterator with it (`LogOk.unlockRead`), a writer
      appends its message (`LogOk.unlockWrite`), which is the only step that changes `appended`;
    * it puts the last segment into the index (`LogOk.indexing`), which is `mbptree_append` on the
      tree of `Shared`, and must leave the iterators of the readers where they are;
    * it returns what the call has come to (`LogOk.returning`).

  A step inside a segment is one of `segStep`.  `InSegment` says what it leaves of the log: only the
  segment at one address is another one.  With it, a step of the writer of the last segment is one
  of the holder (`LogOk.writer_step`), and a step of a reader is one that disturbs nobody
  (`LogOk.reader_step`).  Which access it is does not matter here; that is the next module.

  Three facts about offsets carry the rest: each segment starts where the one in front of it ends
  (`LogState.base_succ`), `segment_write_offset` of the last one is the number of messages
  (`LogOk.writeOffset`), and the floor of a number is the segment which holds its message
  (`LogOk.floor`, `LogOk.kept`).
-/
import Mqlog.LogThreadsInv

namespace Mqlog

open Lib (Held)
open Lib.Records

/-! ## A step in a segment -/

/-- Only the segment at `addr` is another one. -/
structure InSegment (s s' : LogState) (addr : Nat) (g g' : SegState) : Prop where
  size_eq : s'.size = s.size
  flags_eq : s'.flags = s.flags
  index_eq : s'.index = s.index
  dir_eq : s'.dir = s.dir
  get : s.segs[addr]? = some g
  segs_eq : s'.segs = s.segs.set addr g'

section Segment

variable {size : Nat} {s s' : LogState} {m k addr : Nat} {g g' : SegState} {act : SegAct}
  {pc pc' : LogPc}

namespace InSegment

/-- The segment is one of the log. -/
theorem lt (h : InSegment s s' addr g g') : addr < s.segs.length :=
  (List.getElem?_eq_some_iff.mp h.get).1

/-- The segment after the step. -/
theorem get_self (h : InSegment s s' addr g g') : s'.segs[addr]? = some g' := by
  rw [h.segs_eq, List.getElem?_set_self h.lt]

/-- The other segments stay as they are. -/
theorem get_of_ne (h : InSegment s s' addr g g') {j : Nat} (hj : j ≠ addr) :
    s'.segs[j]? = s.segs[j]? := by
  rw [h.segs_eq, List.getElem?_set_ne (Ne.symm hj)]

/-- There are as many segments as before. -/
theorem length_eq (h : InSegment s s' addr g g') : s'.segs.length = s.segs.length := by
  rw [h.segs_eq, List.length_set]

/-- Without a claim the messages stay as they are. -/
theorem map_eq (h : InSegment s s' addr g g') (hclaims : g'.claims = g.claims) :
    s'.segs.map SegState.messages = s.segs.map SegState.messages := by
  refine List.ext_getElem? fun j => ?_
  rw [List.getElem?_map, List.getElem?_map]
  by_cases hj : j = addr
  · rw [hj, h.get_self, h.get, Option.map_some, Option.map_some, SegState.messages, hclaims]
    rfl
  · rw [h.get_of_ne hj]

/-- No segment starts elsewhere than before. -/
theorem base_eq (h : InSegment s s' addr g g')
    (hwhich : addr + 1 = s.segs.length ∨ g'.claims = g.claims) {j : Nat} (hj : j < s.segs.length) :
    s'.base j = s.base j := by
  rcases hwhich with hlast | hclaims
  · rw [LogState.base, h.segs_eq, start_set g' (by omega)]
    rfl
  · exact start_congr (h.map_eq hclaims) j

/-- A claim in the last segment moves no other one. -/
theorem starts_eq (h : InSegment s s' addr g g')
    (hwhich : addr + 1 = s.segs.length ∨ g'.claims = g.claims) :
    starts SegState.messages s'.segs = starts SegState.messages s.segs := by
  rcases hwhich with hlast | hclaims
  · rw [h.segs_eq, starts_set_last g' hlast]
  · exact starts_congr (h.map_eq hclaims)

/-- The messages, when the segment is the last one. -/
theorem messages_eq (h : InSegment s s' addr g g') (hlast : addr + 1 = s.segs.length) {l : List Buf}
    (hmessages : g'.messages = g.messages ++ l) : s'.messages = s.messages ++ l := by
  obtain ⟨hlt, hget⟩ := List.getElem?_eq_some_iff.mp h.get
  have hold : s.segs.set addr g = s.segs := by rw [← hget, List.set_getElem_self]
  calc s'.messages
      = image SegState.messages (s.segs.take addr) ++ g'.messages := by
        rw [LogState.messages, h.segs_eq, image_set_last g' hlast]
    _ = image SegState.messages (s.segs.set addr g) ++ l := by
        rw [image_set_last g hlast, hmessages, List.append_assoc]
    _ = s.messages ++ l := by
        rw [hold]
        rfl

/-- Such a step is one that the others can live with. -/
theorem later (h : InSegment s s' addr g g')
    (hwhich : addr + 1 = s.segs.length ∨ g'.claims = g.claims)
    (hstep : segStep g (k, act) = some g') (hlater : Later g g')
    (happended : s'.appended = s.appended) : LogLater s s' m m k where
  le := Nat.le_refl m
  appended := happended ▸ List.prefix_rfl
  base_eq j hj := h.base_eq hwhich hj
  segs j gj hgj := by
    by_cases hj : j = addr
    · rw [hj, h.get] at hgj
      obtain rfl := Option.some.inj hgj
      exact ⟨g', by rw [hj]; exact h.get_self, hlater, fun i hi => segStep_others hstep hi⟩
    · exact ⟨gj, by rw [h.get_of_ne hj]; exact hgj, .of_eq rfl rfl fun _ => rfl, fun _ _ => rfl⟩
  fresh j gj hj hgj := by
    have hlt := (List.getElem?_eq_some_iff.mp hgj).1
    rw [h.length_eq] at hlt
    omega
  stands it before after hstands := by
    refine ⟨[], ?_⟩
    rw [h.index_eq, List.append_nil]
    exact hstands

/-- A step without a claim and without a store disturbs nobody. -/
theorem undisturbed (h : InSegment s s' addr g g') (hstep : segStep g (k, act) = some g')
    (hsgm : g'.sgm = g.sgm) (hclaims : g'.claims = g.claims) (hleft : ∀ c, g'.left c = g.left c)
    (happended : s'.appended = s.appended) : Undisturbed s s' k where
  index_eq := h.index_eq
  dir_eq := h.dir_eq
  appended_eq := happended
  length_eq := h.length_eq
  segs j gj hgj := by
    by_cases hj : j = addr
    · rw [hj, h.get] at hgj
      obtain rfl := Option.some.inj hgj
      exact ⟨g', by rw [hj]; exact h.get_self, hsgm, hclaims, hleft,
        fun i hi => segStep_others hstep hi⟩
    · exact ⟨gj, by rw [h.get_of_ne hj]; exact hgj, rfl, rfl, fun _ => rfl, fun _ _ => rfl⟩

/-- What all threads share holds on. -/
theorem shared (h : InSegment s s' addr g g') (hshared : Shared size s m) (hsmall : size < 2 ^ 32)
    (hk : s.threads[k]? = some pc) (hpass : Passes pc pc')
    (hwhich : addr + 1 = s.segs.length ∨ g'.claims = g.claims)
    (hstep : segStep g (k, act) = some g') (hreads : readsSealed g (k, act) = false)
    (hthreads : s'.threads = s.threads.set k pc') (happended : s'.appended = s.appended)
    (hreturned : s'.returned = s.returned) : Shared size s' m := by
  obtain ⟨hseg, hlater⟩ := (hshared.segs addr g h.get).step hsmall hreads hstep
  have hentries : s'.entries m = s.entries m := by
    refine List.map_congr_left fun j hj => ?_
    rw [h.base_eq hwhich (Nat.lt_of_lt_of_le (List.mem_range.mp hj) hshared.le)]
  refine ⟨h.size_eq.trans hshared.size_eq, h.flags_eq.trans hshared.flags_eq, ?_, ?_, ?_, ?_, ?_,
    ?_, ?_⟩
  · rw [h.index_eq, hentries]
    exact hshared.tree
  · intro j gj hgj
    rw [hthreads, List.length_set]
    by_cases hj : j = addr
    · rw [hj, h.get_self] at hgj
      obtain rfl := Option.some.inj hgj
      rw [hj, h.base_eq hwhich h.lt]
      exact hseg
    · rw [h.get_of_ne hj] at hgj
      rw [h.base_eq hwhich (List.getElem?_eq_some_iff.mp hgj).1]
      exact hshared.segs j gj hgj
  · intro j gj hjm hgj
    by_cases hj : j = addr
    · rw [hj, h.get_self] at hgj
      obtain rfl := Option.some.inj hgj
      rw [hj] at hjm
      exact (hshared.started addr g hjm h.get).later hlater
    · rw [h.get_of_ne hj] at hgj
      exact hshared.started j gj hjm hgj
  · rw [h.length_eq]
    exact hshared.le
  · rw [h.dir_eq]
    exact hshared.only.mono (LogState.bases_subset hk hthreads (.inl hpass.creates)
      (h.starts_eq hwhich))
  · intro r hr
    rw [hreturned] at hr
    exact (hshared.returned r hr).later (h.later (m := m) hwhich hstep hlater happended)
  · rw [happended]
    exact (LogState.numbers_perm hk hthreads hreturned hpass.number hpass.number').trans
      hshared.numbers

/-- The thread is where it is in its segment, or it has left it. -/
theorem idle_elsewhere (h : InSegment s s' addr g g') (hidle : IdleElsewhere s k pc)
    (haddr : ∀ j, j ≠ addr → pc.addr ≠ some j)
    (hpc' : pc'.addr = some addr ∨ g'.threads[k]? = some .idle) :
    IdleElsewhere s' k pc' := by
  intro j gj hgj hne
  by_cases hj : j = addr
  · rw [hj, h.get_self] at hgj
    obtain rfl := Option.some.inj hgj
    rcases hpc' with haddr' | hthread
    · rw [haddr', hj] at hne
      exact absurd rfl hne
    · exact hthread
  · rw [h.get_of_ne hj] at hgj
    exact hidle j gj hgj (haddr j hj)

end InSegment

/-- **A step of the writer of the last segment.** -/
theorem LogOk.writer_step (h : LogOk size s m) (hsmall : size < 2 ^ 32)
    (hk : s.threads[k]? = some pc) (hholds : pc.holds = true) (hin : InSegment s s' addr g g')
    (hlast : addr + 1 = s.segs.length) (hstep : segStep g (k, act) = some g')
    (hreads : readsSealed g (k, act) = false) (hthreads : s'.threads = s.threads.set k pc')
    (hpass : Passes pc pc') (hlocked : s'.locked = s.locked) (hholds' : pc'.holds = true)
    (happended : s'.appended = s.appended) (hreturned : s'.returned = s.returned)
    (haddr : ∀ j, j ≠ addr → pc.addr ≠ some j)
    (hpc' : pc'.addr = some addr ∨ g'.threads[k]? = some .idle) (hpc : PcOk size s' m k pc') :
    LogOk size s' m := by
  have hseg := (h.shared.segs addr g hin.get).step hsmall hreads hstep
  refine h.next_holder hk hholds
    (hin.shared h.shared hsmall hk hpass (.inl hlast) hstep hreads hthreads happended hreturned)
    hthreads ?_ ?_ hpc (hin.idle_elsewhere (h.placed k pc hk) haddr hpc')
    (hin.later (.inl hlast) hstep hseg.2 happended)
  · rw [hlocked]
    exact h.held.stay hk (hholds'.trans hholds.symm)
  · intro hfree
    rw [hlocked] at hfree
    exact absurd hfree (h.not_free hk hholds)

/-- **A step of a reader.** -/
theorem LogOk.reader_step (h : LogOk size s m) (hsmall : size < 2 ^ 32)
    (hk : s.threads[k]? = some pc) (hholds : pc.holds = false) (hin : InSegment s s' addr g g')
    (hstep : segStep g (k, act) = some g') (hreads : readsSealed g (k, act) = false)
    (hsgm : g'.sgm = g.sgm) (hclaims : g'.claims = g.claims) (hleft : ∀ c, g'.left c = g.left c)
    (hthreads : s'.threads = s.threads.set k pc') (hpass : Passes pc pc')
    (hlocked : s'.locked = s.locked) (hholds' : pc'.holds = false)
    (happended : s'.appended = s.appended) (hreturned : s'.returned = s.returned)
    (haddr : ∀ j, j ≠ addr → pc.addr ≠ some j)
    (hpc' : pc'.addr = some addr ∨ g'.threads[k]? = some .idle) (hpc : PcOk size s' m k pc') :
    LogOk size s' m := by
  have hund := hin.undisturbed hstep hsgm hclaims hleft happended
  refine h.next_undisturbed
    (hin.shared h.shared hsmall hk hpass (.inr hclaims) hstep hreads hthreads happended hreturned)
      hthreads
    ?_ ?_ hpc (hin.idle_elsewhere (h.placed k pc hk) haddr hpc') hund
  · rw [hlocked]
    exact h.held.stay hk (hholds'.trans hholds.symm)
  · intro hfree
    rw [hlocked] at hfree
    exact hund.whole (h.free hfree)

end Segment

/-! ## Steps outside the segments -/

/-- Thread `k`, which is at `pc`, can make its step, and the invariant holds after it. -/
def LogState.Goes (page : PageSize) (size : Nat) (s : LogState) (k : Nat) (pc : LogPc) : Prop :=
  ∃ s' m, s.access page k pc = some s' ∧ LogOk size s' m

section Outside

variable {page : PageSize} {size : Nat} {s : LogState} {m k : Nat}

/-- A thread that goes on to a point on the same side of the lock. -/
theorem LogOk.goto (h : LogOk size s m) {pc pc' : LogPc} (hk : s.threads[k]? = some pc)
    (haddr : pc.addr = none) (hpass : Passes pc pc') (hholds : pc'.holds = pc.holds)
    (hpc : PcOk size (s.goto k pc') m k pc') : LogOk size (s.goto k pc') m :=
  h.passes hk haddr ⟨⟨rfl, rfl, rfl, rfl⟩, rfl, rfl, rfl⟩ rfl hpass (h.held.stay hk hholds)
    (fun hfree => ⟨(h.free hfree).indexed, (h.free hfree).messages_eq⟩) hpc

/-- **A call of `mqlog_write`.** -/
theorem LogOk.call_write (h : LogOk size s m) (hk : s.threads[k]? = some .idle) {buf : Buf}
    (hfits : buf.1.length + 2 * headerSize ≤ size) {s' : LogState}
    (hstep : logStep page s (k, .write buf) = some s') : LogOk size s' m := by
  simp only [logStep, hk] at hstep
  split at hstep
  · rename_i hzero
    cases hstep
    exact h.goto hk rfl ⟨rfl, rfl, rfl⟩ rfl (.inl ⟨rfl, .inr ⟨rfl, hzero⟩⟩)
  · rename_i hne
    cases hstep
    exact h.goto hk rfl ⟨rfl, rfl, rfl⟩ rfl ⟨Nat.pos_of_ne_zero hne, hfits⟩

/-- **A call of `mqlog_read`.** -/
theorem LogOk.call_read (h : LogOk size s m) (hk : s.threads[k]? = some .idle) {offset : Nat}
    {s' : LogState} (hstep : logStep page s (k, .read offset) = some s') : LogOk size s' m := by
  simp only [logStep, hk] at hstep
  cases hstep
  exact h.goto hk rfl ⟨rfl, rfl, rfl⟩ rfl (Nat.le_refl s.appended.length)

/-- `mqlog_write` takes the mutex, or returns `ELLOCK`. -/
theorem LogOk.lockWrite (h : LogOk size s m) {buf : Buf}
    (hk : s.threads[k]? = some (.lockWrite buf)) :
    s.Goes page size k (.lockWrite buf) := by
  cases hlocked : s.locked with
  | true =>
    refine ⟨s.goto k (.returning (.write buf ELLOCK none)), m, ?_,
      h.goto hk rfl ⟨rfl, rfl, rfl⟩ rfl (.inl ⟨rfl, .inl rfl⟩)⟩
    rw [LogState.access, if_pos hlocked]
  | false =>
    have hwhole := h.free hlocked
    refine ⟨{ s.goto k (.lastValue buf) with locked := true }, m, ?_, ?_⟩
    · rw [LogState.access, hlocked, if_neg Bool.false_ne_true]
    · refine h.passes hk rfl ⟨⟨rfl, rfl, rfl, rfl⟩, rfl, rfl, rfl⟩ rfl ⟨rfl, rfl, rfl⟩ ?_
        Bool.noConfusion
        ⟨h.pcs k _ hk, hwhole.indexed, hwhole.messages_eq⟩
      have hheld := h.held
      rw [hlocked] at hheld
      exact hheld.acquire hk rfl rfl

/-- `mqlog_read` takes the mutex, or returns `ELLOCK`. -/
theorem LogOk.lockRead (h : LogOk size s m) {offset known : Nat}
    (hk : s.threads[k]? = some (.lockRead offset known)) :
    s.Goes page size k (.lockRead offset known) := by
  cases hlocked : s.locked with
  | true =>
    refine ⟨s.goto k (.returning (.read offset known ELLOCK none)), m, ?_,
      h.goto hk rfl ⟨rfl, rfl, rfl⟩ rfl (.inl rfl)⟩
    rw [LogState.access, if_pos hlocked]
  | false =>
    have hwhole := h.free hlocked
    refine ⟨{ s.goto k (.floor offset known) with locked := true }, m, ?_, ?_⟩
    · rw [LogState.access, hlocked, if_neg Bool.false_ne_true]
    · refine h.passes hk rfl ⟨⟨rfl, rfl, rfl, rfl⟩, rfl, rfl, rfl⟩ rfl ⟨rfl, rfl, rfl⟩ ?_
        Bool.noConfusion
        ⟨h.pcs k _ hk, hwhole.indexed, hwhole.messages_eq⟩
      have hheld := h.held
      rw [hlocked] at hheld
      exact hheld.acquire hk rfl rfl

/-- The numbers of the messages when a thread unlocks that has written one. -/
theorem LogOk.unlock_numbers (h : LogOk size s m) {buf : Buf} {rc : Int}
    (hk : s.threads[k]? = some (.unlockWrite buf rc)) {s' : LogState}
    (hthreads : s'.threads = s.threads.set k (.returning (.write buf rc (some s.appended.length))))
    (hreturned : s'.returned = s.returned) (happended : s'.appended = s.appended ++ [buf]) :
    s'.numbers.Perm (List.range s'.appended.length) := by
  have hperm : ((s.threads.set k (.returning (.write buf rc (some s.appended.length)))).filterMap
      LogPc.number).Perm (s.appended.length :: s.threads.filterMap LogPc.number) :=
    Lib.filterMap_set_perm LogPc.number hk (.returning (.write buf rc (some s.appended.length)))
  rw [LogState.numbers, hthreads, hreturned, happended, List.length_append, List.length_singleton,
    List.range_succ]
  refine (hperm.append_left _).trans (List.perm_middle.trans ?_)
  exact (h.shared.numbers.cons _).trans (List.perm_append_singleton _ _).symm

/-- **A message is appended**: its writer gives the mutex up. -/
theorem LogOk.unlockWrite (h : LogOk size s m) {buf : Buf} {rc : Int}
    (hk : s.threads[k]? = some (.unlockWrite buf rc)) :
    s.Goes page size k (.unlockWrite buf rc) := by
  obtain ⟨⟨hpos, -⟩, hindexed, hrc, hmessages⟩ := h.pcs k _ hk
  have hrcpos : 0 < rc := by omega
  have hunlock : s.unlockWrite k buf rc =
      { s.goto k (.returning (.write buf rc (some s.appended.length))) with
        locked := false
        appended := s.appended ++ [buf] } := if_pos hrcpos
  have hsame : SameSegs s (s.unlockWrite k buf rc) := by
    rw [hunlock]
    exact ⟨rfl, rfl, rfl, rfl⟩
  have hthreads : (s.unlockWrite k buf rc).threads =
      s.threads.set k (.returning (.write buf rc (some s.appended.length))) := by
    rw [hunlock]
    rfl
  have happended : (s.unlockWrite k buf rc).appended = s.appended ++ [buf] := by rw [hunlock]
  have hreturned : (s.unlockWrite k buf rc).returned = s.returned := by
    rw [hunlock]
    rfl
  have hdir : (s.unlockWrite k buf rc).dir = s.dir := by
    rw [hunlock]
    rfl
  have hlocked : (s.unlockWrite k buf rc).locked = false := by rw [hunlock]
  refine ⟨s.unlockWrite k buf rc, m, rfl, h.holder_passes hk rfl rfl hsame hthreads
    ⟨[buf], happended.symm⟩ hreturned ?_ (h.unlock_numbers hk hthreads hreturned happended) ?_
    (fun _ => ⟨hindexed.trans (congrArg List.length hsame.segs_eq.symm), ?_⟩)
    (.inr ⟨s.appended.length, rfl, hrc, ?_⟩)⟩
  · rw [hdir]
    exact h.shared.only.mono (LogState.bases_subset hk hthreads (.inl rfl)
      (congrArg _ hsame.segs_eq))
  · have hheld := h.held
    rw [h.held.locked_eq hk rfl] at hheld
    rw [hlocked]
    exact hheld.release hk rfl rfl
  · rw [LogState.messages, hsame.segs_eq, happended]
    exact hmessages
  · rw [happended, List.getElem?_concat_length]

/-- **A call returns.** -/
theorem LogOk.returning (h : LogOk size s m) {r : LogReturned}
    (hk : s.threads[k]? = some (.returning r)) :
    s.Goes page size k (.returning r) := by
  have hok : LogReturnedOk s r := h.pcs k _ hk
  have hsame : SameSegs s (s.answer k r) := ⟨rfl, rfl, rfl, rfl⟩
  have hund : Undisturbed s (s.answer k r) k :=
    ⟨rfl, rfl, rfl, rfl, fun j g hg => ⟨g, hg, rfl, rfl, fun _ => rfl, fun _ _ => rfl⟩⟩
  have hthreads : (s.answer k r).threads = s.threads.set k .idle := rfl
  refine ⟨s.answer k r, m, rfl, h.next_undisturbed (hsame.shared h.shared hthreads ?_ ?_ ?_)
    hthreads
    (h.held.stay hk rfl) (fun hfree => hund.whole (h.free hfree)) trivial
      (h.idle_elsewhere hk rfl rfl) hund⟩
  · exact h.shared.only.mono (LogState.bases_subset hk hthreads (.inl rfl) rfl)
  · intro r' hr'
    refine LogReturnedOk.later ?_ (hund.later (m := m))
    rcases List.mem_append.mp hr' with hold | hnew
    · exact h.shared.returned r' hold
    · rw [List.mem_singleton.mp hnew]
      exact hok
  · -- the number goes from the thread to the history
    have hperm := Lib.filterMap_set_perm LogPc.number hk .idle
    have hnumbers : (s.answer k r).numbers = s.returned.filterMap LogReturned.number ++
        r.number.toList ++ (s.threads.set k .idle).filterMap LogPc.number := by
      show (s.returned ++ [r]).filterMap _ ++ _ = _
      rw [List.filterMap_append]
      cases r with
      | write buf rc number =>
        cases number with
        | none => rfl
        | some n => rfl
      | read offset known rc fr => rfl
    rw [hnumbers, List.append_assoc]
    exact (hperm.append_left _).trans h.shared.numbers

/-- Each segment starts where the one in front of it ends. -/
theorem LogState.base_succ {g : SegState} {j : Nat} (hg : s.segs[j]? = some g) :
    s.base (j + 1) = s.base j + g.messages.length := by
  obtain ⟨hlt, rfl⟩ := List.getElem?_eq_some_iff.mp hg
  exact start_succ hlt

/-- No entry of the index is at the number of messages or above. -/
theorem Shared.key_lt (h : Shared size s m) {e : Data} (he : e ∈ s.entries m) :
    ∃ j g, j < m ∧ s.segs[j]? = some g ∧ e = ⟨s.base j, j⟩ ∧ e.key + 1 ≤ s.base (j + 1) := by
  obtain ⟨j, hj, rfl⟩ := List.mem_map.mp he
  rw [List.mem_range] at hj
  have hlt : j < s.segs.length := Nat.lt_of_lt_of_le hj h.le
  have hg : s.segs[j]? = some s.segs[j] := List.getElem?_eq_getElem hlt
  refine ⟨j, _, hj, hg, rfl, ?_⟩
  rw [LogState.base_succ hg]
  exact Nat.add_le_add_left (h.started j _ hj hg).messages_pos _

/-- Every segment starts in front of the end of the log: it has a message. -/
theorem Shared.lt_next (h : Shared size s s.segs.length) {b : Nat}
    (hb : b ∈ starts SegState.messages s.segs) :
    b < s.messages.length := by
  obtain ⟨j, hj, rfl⟩ := List.getElem_of_mem hb
  rw [length_starts] at hj
  obtain ⟨j', _, -, -, hentry, hkey⟩ := h.key_lt (e := ⟨s.base j, j⟩)
    (List.mem_map.mpr ⟨j, List.mem_range.mpr hj, rfl⟩)
  obtain ⟨-, rfl⟩ := Data.mk.inj hentry
  have hend : s.base (j + 1) ≤ s.messages.length := by
    rw [← s.base_length]
    exact start_mono hj
  rw [getElem_starts]
  exact Nat.lt_of_lt_of_le hkey hend

/-- There is no segment yet at the next base offset. -/
theorem Shared.next_not_mem (h : Shared size s s.segs.length) :
    s.messages.length ∉ starts SegState.messages s.segs :=
  fun hmem => Nat.lt_irrefl _ (h.lt_next hmem)

/-- There are no files yet where the log ends. -/
theorem LogOk.no_files (h : LogOk size s m) {pc : LogPc} (hk : s.threads[k]? = some pc)
    (hholds : pc.holds = true) (hcreates : pc.creates = none) (hwhole : s.Whole m) {b : Nat}
    (hb : b = s.messages.length) : s.dir.files b = OpenPc.openIndex.files size := by
  have honly := h.shared.only
  rw [LogState.bases, h.creates_nil hk hholds hcreates, List.append_nil] at honly
  have hshared := h.shared
  rw [hwhole.indexed] at hshared
  rw [hb]
  exact honly.files_eq_none hshared.next_not_mem

/-- `segment_write_offset` is the number of messages. -/
theorem LogOk.writeOffset (h : LogOk size s m) {addr : Nat} {buf : Buf}
    (hk : s.threads[k]? = some (.writeOffset addr buf)) :
    s.Goes page size k (.writeOffset addr buf) := by
  obtain ⟨hfits, hwhole, hlast⟩ := h.pcs k _ hk
  have hlt : addr < s.segs.length := by omega
  have hg : s.segs[addr]? = some s.segs[addr] := List.getElem?_eq_getElem hlt
  have hseg := h.shared.segs addr _ hg
  -- the next message is the first one behind the segment
  have hnext : segmentWriteOffset s.segs[addr].sgm = s.messages.length := by
    rw [segmentWriteOffset, hseg.base_eq, hseg.count_eq, LogState.base, ← start_succ hlt, hlast]
    exact s.base_length
  refine ⟨s.goto k (.create .openIndex (segmentWriteOffset s.segs[addr].sgm) buf), m, ?_,
    h.goto hk rfl ⟨rfl, rfl, rfl⟩ rfl
      ⟨hfits, ⟨hwhole.indexed, hwhole.messages_eq⟩, hnext, h.no_files hk rfl rfl hwhole hnext⟩⟩
  rw [LogState.access, hg]
  rfl

end Outside

/-! ## The index -/

section Index

variable {page : PageSize} {size : Nat} {s : LogState} {m k : Nat}

/-- The index has an entry for each segment in it. -/
theorem length_entries (s : LogState) (m : Nat) : (s.entries m).length = m := by
  rw [LogState.entries, List.length_map, List.length_range]

/-- The `j`-th entry of the index. -/
theorem getElem?_entries (s : LogState) {j : Nat} (hj : j < m) :
    (s.entries m)[j]? = some ⟨s.base j, j⟩ := by
  rw [LogState.entries, List.getElem?_map, List.getElem?_range hj]
  rfl

/-- Where the floor search stands. -/
theorem LogOk.floor (h : LogOk size s m) {offset known : Nat}
    (hk : s.threads[k]? = some (.floor offset known)) :
    s.Goes page size k (.floor offset known) := by
  obtain ⟨hknown, hwhole⟩ := h.pcs k _ hk
  obtain ⟨it, hfloor, hcases⟩ := mbptreeLeafFloor_stands three_le_branchFactor h.shared.tree offset
  refine ⟨s.goto k (.unlockRead offset known it), m, ?_,
    h.goto hk rfl ⟨rfl, rfl, rfl⟩ rfl ⟨hknown, ⟨hwhole.indexed, hwhole.messages_eq⟩, ?_⟩⟩
  · rw [LogState.access, hfloor]
    rfl
  rcases hcases with ⟨habove, rfl⟩ | ⟨before, d, post, hes, hle, hpost, hstands⟩
  · -- the first segment starts at message 0
    refine .inl ⟨?_, rfl⟩
    by_contra hm
    have hfirst := habove _ (List.mem_of_getElem? (getElem?_entries s (Nat.pos_of_ne_zero hm)))
    rw [LogState.base, start_zero] at hfirst
    exact absurd hfirst (Nat.not_lt_zero offset)
  · right
    have hlen := congrArg List.length hes
    rw [length_entries, List.length_append, List.length_cons] at hlen
    have hj : before.length < m := by omega
    have hd := getElem?_entries s hj
    rw [hes, List.getElem?_append_right (Nat.le_refl _), Nat.sub_self] at hd
    obtain rfl : d = ⟨s.base before.length, before.length⟩ := Option.some.inj hd
    refine ⟨before.length, hj, hle, fun hnext => ?_, before, post, hstands⟩
    have hsucc := getElem?_entries s hnext
    rw [hes, List.getElem?_append_right (Nat.le_add_right _ 1), Nat.add_sub_cancel_left] at hsucc
    exact hpost _ (List.mem_of_getElem? hsucc)

/-- The message with a number below the next segment is stored in the segment found. -/
theorem LogOk.kept (h : LogOk size s m) {pc : LogPc} (hk : s.threads[k]? = some pc)
    (hholds : pc.holds = true) (haddr : pc.addr = none) (hwhole : s.Whole m) {j offset : Nat}
    {g : SegState} (hj : j < m) (hg : s.segs[j]? = some g) (hle : s.base j ≤ offset)
    (hnext : j + 1 < m → offset < s.base (j + 1)) (hoffset : offset < s.messages.length) :
    g.Kept (offset - s.base j) := by
  have hlt : offset < s.base (j + 1) := by
    rcases Nat.lt_or_ge (j + 1) m with hmore | hlast
    · exact hnext hmore
    · obtain rfl : m = j + 1 := by omega
      rw [hwhole.indexed, s.base_length]
      exact hoffset
  rw [LogState.base_succ hg] at hlt
  obtain ⟨c, hc, hframe, hbase⟩ := (h.shared.segs j g hg).serial.claim_eq
    (show offset - s.base j < (payloads g.claims).length from by
      have heq : g.messages = payloads g.claims := rfl
      rw [heq] at hlt
      omega)
  exact ⟨c, hc, by rw [hframe]; exact Option.some_ne_none _, by rw [hbase],
    h.left_eq hk hholds haddr hg c⟩

/-- `mqlog_read` gives the mutex up, and returns `ELNORD` or goes on with the entry. -/
theorem LogOk.unlockRead (h : LogOk size s m) {offset known : Nat} {it : LeafIterator}
    (hk : s.threads[k]? = some (.unlockRead offset known it)) :
    s.Goes page size k (.unlockRead offset known it) := by
  obtain ⟨hknown, hwhole, hcases⟩ := h.pcs k _ hk
  have hheld := h.held
  rw [h.held.locked_eq hk rfl] at hheld
  rcases hcases with ⟨hm, rfl⟩ | ⟨j, hj, hle, hnext, before, post, hstands⟩
  · have hvalid : mbptreeLeafIteratorValid s.index ⟨0, 0⟩ = some false := rfl
    -- there is no message yet
    have hnone : known ≤ offset := by
      have hnil : s.segs = [] := List.length_eq_zero_iff.mp (by rw [← hwhole.indexed, hm])
      rw [← hwhole.messages_eq, LogState.messages, hnil] at hknown
      exact Nat.le_trans hknown (Nat.zero_le offset)
    refine ⟨{ s.goto k (.returning (.read offset known ELNORD none)) with locked := false }, m, ?_,
      h.passes hk rfl ⟨⟨rfl, rfl, rfl, rfl⟩, rfl, rfl, rfl⟩ rfl ⟨rfl, rfl, rfl⟩
        (hheld.release hk rfl rfl)
        (fun _ => ⟨hwhole.indexed, hwhole.messages_eq⟩) (.inr (.inl ⟨rfl, hnone⟩))⟩
    rw [LogState.access, hvalid]
    rfl
  · have hvalid := (hstands.cursor three_le_branchFactor).valid_cons
    have hlt : j < s.segs.length := Nat.lt_of_lt_of_le hj h.shared.le
    refine ⟨{ s.goto k (.value offset known it) with locked := false }, m, ?_, ?_⟩
    · rw [LogState.access, hvalid]
      rfl
    · refine h.passes hk rfl ⟨⟨rfl, rfl, rfl, rfl⟩, rfl, rfl, rfl⟩ rfl ⟨rfl, rfl, rfl⟩
        (hheld.release hk rfl rfl) (fun _ => ⟨hwhole.indexed, hwhole.messages_eq⟩)
        ⟨j, s.segs[j], hj, List.getElem?_eq_getElem hlt, hle, fun hoffset => ?_, before, post,
          hstands⟩
      refine h.kept hk rfl rfl hwhole hj (List.getElem?_eq_getElem hlt) hle hnext ?_
      rw [hwhole.messages_eq]
      exact Nat.lt_of_lt_of_le hoffset hknown

/-- **The last segment is put into the index**; the iterators of the readers stay where they are. -/
theorem LogOk.indexing (h : LogOk size s m) {addr : Nat} {buf : Buf} {written : Int}
    (hk : s.threads[k]? = some (.indexing addr buf written)) :
    s.Goes page size k (.indexing addr buf written) := by
  obtain ⟨hfits, hlast, rfl, hwritten, hmessages, g, hg, hstarted⟩ := h.pcs k _ hk
  have hkeys : ∀ d ∈ s.entries m, d.key < s.base m := by
    intro d hd
    obtain ⟨j, _, hj, -, -, hkey⟩ := h.shared.key_lt hd
    exact Nat.lt_of_lt_of_le hkey (start_mono hj)
  obtain ⟨index, happend, htree, -⟩ :=
    mbptreeAppend_spec three_le_branchFactor h.shared.tree (s.base m) m
  rw [sortedAppend, if_pos hkeys] at happend htree
  have hbase : segmentBaseOffset g.sgm = s.base m := (h.shared.segs m g hg).base_eq
  refine ⟨{ s with index := index }.goto k (.unlockWrite buf written), m + 1, ?_, ?_⟩
  · rw [LogState.access, hg]
    simp only [Option.bind_eq_bind, Option.bind_some, hbase, happend]
    rfl
  have hshared : Shared size ({ s with index := index }.goto k (.unlockWrite buf written))
      (m + 1) := by
    refine ⟨h.shared.size_eq, h.shared.flags_eq, ?_, ?_, ?_, Nat.le_of_eq hlast, ?_,
      h.shared.returned, ?_⟩
    · show TreeHolds branchFactor index (s.entries (m + 1))
      rw [LogState.entries_succ]
      exact htree
    · intro j gj hgj
      show SegOk size (s.threads.set k _).length _ gj
      rw [List.length_set]
      exact h.shared.segs j gj hgj
    · intro j gj hj hgj
      rcases Nat.lt_succ_iff_lt_or_eq.mp hj with hlt | rfl
      · exact h.shared.started j gj hlt hgj
      · have hgj' : s.segs[j]? = some gj := hgj
        rw [hg] at hgj'
        obtain rfl := Option.some.inj hgj'
        exact hstarted
    · exact h.shared.only.mono (LogState.bases_subset hk rfl (.inl rfl) rfl)
    · have hnumbers : ({ s with index := index }.goto k (.unlockWrite buf written)).numbers.Perm
        s.numbers :=
        LogState.numbers_perm hk rfl rfl rfl rfl
      exact hnumbers.trans h.shared.numbers
  refine h.next_holder hk rfl hshared rfl (h.held.stay hk rfl) (fun hfree => ?_)
    ⟨hfits, hlast, hwritten, hmessages⟩ (fun j gj hgj _ => h.placed k _ hk j gj hgj
      (LogPc.addr_ne rfl j)) ?_
  · exact absurd hfree (h.not_free hk rfl)
  · refine ⟨Nat.le_succ m, List.prefix_rfl, fun _ _ => rfl,
      fun j gj hgj => ⟨gj, hgj, .of_eq rfl rfl fun _ => rfl, fun _ _ => rfl⟩, fun j gj hj hgj => ?_,
        fun it before after hstands => ?_⟩
    · exact absurd (List.getElem?_eq_some_iff.mp hgj).1 (Nat.not_lt.mpr hj)
    · obtain ⟨rc, t', new, happend', hstands'⟩ := hstands.append three_le_branchFactor (s.base m) m
      rw [happend] at happend'
      obtain ⟨-, rfl⟩ := Prod.mk.inj (Option.some.inj happend')
      exact ⟨new, hstands'⟩

end Index

end Mqlog
