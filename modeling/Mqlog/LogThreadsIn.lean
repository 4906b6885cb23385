/-
  The steps of the threads of a log inside its segments.

  `mqlog_write` enters `segment_write` in the last segment (`LogOk.lastValue`) or in one that it has
  just created.  The creation is one step of `segment_open` after the other, in files that nobody
  else looks at (`LogOk.create`); the last of these steps adds the segment, and the call of
  `segment_write` in it is part of that step (`LogOk.create_opened`).

  What the accesses of `segment_write` do is `WriterStep.outcome`, for a writer that is alone in its
  segment, as the holder of the mutex is.  It has three cases, with one lemma for each:

    * the thread goes on there (`WriterAt.goes_on`): the claim may have been made in this step, and
      then there is a message in flight, and one more message in the log;
    * there is no capacity left (`WriterAt.full`): `segment_write` returns `ELEOS`, and the segment
      is not a new one, because the payload fits into an empty segment (`FitsLog`);
    * the payload is stored (`WriterAt.stored`): the last store was made, nothing is in flight any
      more.

  `mqlog_read` enters `segment_read` in the segment that it has found (`LogOk.value`).  Its accesses
  are `reading_step`: the thread goes on (`ReaderAt.goes_on`) or returns (`ReaderAt.returns`).  A
  reader whose message was appended before it called must not miss it: it sees the end of the write
  offset behind the frame and a header that is set, and `Sees.step` carries this from one access to
  the next.

  None of these accesses is behind the end of an index file (`¬ LogState.Beyond`): that is the only
  thing which can go wrong.  `LogOk.goes` says this of all points at once, `LogOk.not_beyond` that a
  step which was made was none of them.
-/
import Mqlog.LogThreadsStep

namespace Mqlog

open Lib (Held)
open Lib.Records

/-- The next access of thread `k` is behind the end of the index file of the segment that it is
    in. -/
def LogState.Beyond (s : LogState) (k : Nat) : Prop :=
  ∃ (addr : Nat) (g : SegState), s.segs[addr]? = some g ∧ g.beyond k = true

section Enter

variable {page : PageSize} {size : Nat} {s : LogState} {m k : Nat}

theorem inSegment_eq {addr : Nat} {g g' : SegState} {act : SegAct} (hg : s.segs[addr]? = some g)
    (hroom : g.beyond k = false) (hstep : segStep g (k, act) = some g') :
    s.inSegment k addr act = some { s with segs := s.segs.set addr g' } := by
  rw [LogState.inSegment, hg]
  simp only [Option.bind_eq_bind, Option.bind_some, hroom, Bool.false_eq_true, if_false, hstep]
  rfl

/-- A thread outside both functions is at no access. -/
theorem beyond_idle {g : SegState} (hidle : g.threads[k]? = some .idle) :
    g.beyond k = false := by
  simp only [SegState.beyond, hidle, SegPc.beyond]

theorem not_beyond (hroom : ¬ s.Beyond k) {addr : Nat} {g : SegState}
    (hg : s.segs[addr]? = some g) :
    g.beyond k = false := by
  rw [← Bool.not_eq_true]
  exact fun hbeyond => hroom ⟨addr, g, hg, hbeyond⟩

theorem segStep_write {g : SegState} (hidle : g.threads[k]? = some .idle) (buf : Buf) :
    segStep g (k, .write buf) = some (g.goto k (.markedOffset buf)) := by
  simp only [segStep, hidle]

theorem segStep_read {g : SegState} (hidle : g.threads[k]? = some .idle) (relativeOffset : Nat) :
    segStep g (k, .read relativeOffset) = some (g.goto k (.boundary relativeOffset)) := by
  simp only [segStep, hidle]

theorem goto_self {g : SegState} {pc : SegPc} (hk : g.threads[k]? = some pc) (pc' : SegPc) :
    (g.goto k pc').threads[k]? = some pc' :=
  List.getElem?_set_self (List.getElem?_eq_some_iff.mp hk).1

/-- **The write is tried on the last segment**, or there is none. -/
theorem LogOk.lastValue (h : LogOk size s m) (hsmall : size < 2 ^ 32) {buf : Buf}
    (hk : s.threads[k]? = some (.lastValue buf)) : s.Goes page size k (.lastValue buf) := by
  obtain ⟨hfits, hwhole⟩ := h.pcs k _ hk
  have hlast := mbptreeLastValue_spec h.shared.tree
  cases m with
  | zero =>
    have hzero : s.messages.length = 0 := by
      rw [LogState.messages, List.length_eq_zero_iff.mp hwhole.indexed.symm]
      rfl
    refine ⟨s.goto k (.create .openIndex 0 buf), 0, ?_, h.goto hk rfl ⟨rfl, rfl, rfl⟩ rfl
      ⟨hfits, ⟨hwhole.indexed, hwhole.messages_eq⟩, hzero.symm, h.no_files hk rfl rfl hwhole
        hzero.symm⟩⟩
    rw [LogState.access, hlast]
    rfl
  | succ addr =>
    rw [LogState.entries_succ, List.getLast?_concat, Option.map_some] at hlast
    have hlt : addr < s.segs.length := by
      rw [← hwhole.indexed]
      exact Nat.lt_succ_self addr
    have hg : s.segs[addr]? = some s.segs[addr] := List.getElem?_eq_getElem hlt
    have hidle := h.placed k _ hk addr _ hg (LogPc.addr_ne rfl addr)
    have hstep := segStep_write hidle buf
    have hin : InSegment s
        { s.goto k (.writing addr false buf) with
          segs := s.segs.set addr (s.segs[addr].goto k (.markedOffset buf)) }
        addr s.segs[addr] (s.segs[addr].goto k (.markedOffset buf)) := ⟨rfl, rfl, rfl, rfl, hg, rfl⟩
    refine ⟨_, addr + 1, ?_, h.writer_step hsmall hk rfl hin hwhole.indexed hstep rfl rfl
      ⟨rfl, rfl, rfl⟩ rfl
      rfl rfl rfl (fun j _ => LogPc.addr_ne rfl j) (.inl rfl) ?_⟩
    · rw [LogState.access, hlast]
      exact inSegment_eq (s := s.goto k (.writing addr false buf)) hg (beyond_idle hidle) hstep
    · refine ⟨hfits, hwhole.indexed.trans hin.length_eq.symm, _, .markedOffset buf, hin.get_self,
        goto_self hidle _, rfl, hwhole.indexed.trans hin.length_eq.symm, ?_⟩
      rw [hin.messages_eq (l := []) hwhole.indexed (List.append_nil _).symm, List.append_nil]
      exact hwhole.messages_eq.trans (List.append_nil _).symm

end Enter

/-! ## A new segment -/

/-- The log has one more segment, at the next offset. -/
structure Adds (s s' : LogState) (g : SegState) : Prop where
  size_eq : s'.size = s.size
  flags_eq : s'.flags = s.flags
  index_eq : s'.index = s.index
  segs_eq : s'.segs = s.segs ++ [g]
  dir_eq : s'.dir = s.dir
  appended_eq : s'.appended = s.appended
  claims_eq : g.claims = []

namespace Adds

variable {size : Nat} {s s' : LogState} {m k j : Nat} {g g' : SegState} {pc' : LogPc}

theorem length_eq (h : Adds s s' g) : s'.segs.length = s.segs.length + 1 := by
  rw [h.segs_eq, List.length_append, List.length_singleton]

theorem base_eq (h : Adds s s' g) (hj : j ≤ s.segs.length) : s'.base j = s.base j := by
  rw [LogState.base, h.segs_eq, start_append hj]
  rfl

/-- A new segment has no messages. -/
theorem messages_eq (h : Adds s s' g) : s'.messages = s.messages := by
  rw [LogState.messages, h.segs_eq, image_snoc, SegState.messages, h.claims_eq]
  exact List.append_nil _

/-- The new segment is the last one. -/
theorem get_new (h : Adds s s' g) : s'.segs[s.segs.length]? = some g := by
  rw [h.segs_eq, List.getElem?_concat_length]

/-- The other segments stay as they are. -/
theorem get_old (h : Adds s s' g) (hg' : s.segs[j]? = some g') : s'.segs[j]? = some g' := by
  rw [h.segs_eq, List.getElem?_append_left (List.getElem?_eq_some_iff.mp hg').1]
  exact hg'

/-- A segment of the log is one of those before, or the new one. -/
theorem get_cases (h : Adds s s' g) (hg' : s'.segs[j]? = some g') :
    s.segs[j]? = some g' ∨ j = s.segs.length ∧ g' = g := by
  have hlt := (List.getElem?_eq_some_iff.mp hg').1
  rw [h.length_eq] at hlt
  rcases Nat.lt_succ_iff_lt_or_eq.mp hlt with hlt | rfl
  · rw [h.segs_eq, List.getElem?_append_left hlt] at hg'
    exact .inl hg'
  · rw [h.get_new] at hg'
    exact .inr ⟨rfl, (Option.some.inj hg').symm⟩

/-- Such a step is one that the others can live with. -/
theorem later (h : Adds s s' g)
    (hidle : ∀ i, i ≠ k → i < s.threads.length → g.threads[i]? = some .idle) :
    LogLater s s' m m k where
  le := Nat.le_refl m
  appended := h.appended_eq ▸ List.prefix_rfl
  base_eq j hj := h.base_eq (Nat.le_of_lt hj)
  segs j g' hg' := ⟨g', h.get_old hg', .of_eq rfl rfl fun _ => rfl, fun _ _ => rfl⟩
  fresh j g' hj hg' i hi hlt := by
    rcases h.get_cases hg' with hold | ⟨-, rfl⟩
    · exact absurd (List.getElem?_eq_some_iff.mp hold).1 (Nat.not_lt.mpr hj)
    · exact hidle i hi hlt
  stands it before after hstands := by
    refine ⟨[], ?_⟩
    rw [h.index_eq, List.append_nil]
    exact hstands

/-- The files of the segment that was being created are those of the new one. -/
theorem bases_subset (h : Adds s s' g) {pc : LogPc} (hk : s.threads[k]? = some pc)
    (hcreates : pc.creates = some s.messages.length) (hthreads : s'.threads = s.threads.set k pc')
    (hcreates' : pc'.creates = none) : s.bases ⊆ s'.bases := by
  have hperm := Lib.filterMap_set_perm LogPc.creates hk pc'
  rw [hcreates, hcreates', Option.toList_some, Option.toList_none, List.nil_append] at hperm
  rw [LogState.bases, LogState.bases, hthreads, h.segs_eq, starts_snoc, List.append_assoc]
  exact List.append_subset.mpr ⟨List.subset_append_left .., fun b hb =>
    List.mem_append_right _ (hperm.symm.subset hb)⟩

/-- What all threads share holds on. -/
theorem shared (h : Adds s s' g) (hshared : Shared size s s.segs.length) {pc : LogPc}
    (hk : s.threads[k]? = some pc) (hcreates : pc.creates = some s.messages.length)
    (hnumber : pc.number = none) (hcreates' : pc'.creates = none) (hnumber' : pc'.number = none)
    (hthreads : s'.threads = s.threads.set k pc') (hreturned : s'.returned = s.returned)
    (hseg : SegOk size s.threads.length s.messages.length g)
    (hidle : ∀ i, i ≠ k → i < s.threads.length → g.threads[i]? = some .idle) :
    Shared size s' s.segs.length where
  size_eq := h.size_eq.trans hshared.size_eq
  flags_eq := h.flags_eq.trans hshared.flags_eq
  tree := by
    have hentries : s'.entries s.segs.length = s.entries s.segs.length :=
      List.map_congr_left fun j hj => by rw [h.base_eq (Nat.le_of_lt (List.mem_range.mp hj))]
    rw [h.index_eq, hentries]
    exact hshared.tree
  segs j g' hg' := by
    rw [hthreads, List.length_set]
    rcases h.get_cases hg' with hold | ⟨rfl, rfl⟩
    · rw [h.base_eq (Nat.le_of_lt (List.getElem?_eq_some_iff.mp hold).1)]
      exact hshared.segs j g' hold
    · rw [h.base_eq (Nat.le_refl _), s.base_length]
      exact hseg
  started j g' hj hg' := by
    rcases h.get_cases hg' with hold | ⟨rfl, -⟩
    · exact hshared.started j g' hj hold
    · exact absurd hj (Nat.lt_irrefl _)
  le := by
    rw [h.length_eq]
    exact Nat.le_succ _
  only := by
    rw [h.dir_eq]
    exact hshared.only.mono (h.bases_subset hk hcreates hthreads hcreates')
  returned r hr := by
    rw [hreturned] at hr
    exact (hshared.returned r hr).later (h.later (m := s.segs.length) hidle)
  numbers := by
    rw [h.appended_eq]
    exact (LogState.numbers_perm hk hthreads hreturned hnumber hnumber').trans hshared.numbers

end Adds

section Create

variable {page : PageSize} {size : Nat} {s : LogState} {m k : Nat}

/-- **A step of `segment_open`** on the way to a new segment: its files are another step further. -/
theorem LogOk.create_next (h : LogOk size s m) {pc pc' : OpenPc} {buf : Buf}
    (hk : s.threads[k]? = some (.create pc s.messages.length buf)) (hfits : FitsLog size buf)
    (hwhole : s.Whole m) :
    LogOk size { s.goto k (.create pc' s.messages.length buf) with
      dir := s.dir.put s.messages.length (pc'.files size) } m := by
  have hmem : s.messages.length ∈ s.bases :=
    List.mem_append_right _ (List.mem_filterMap.mpr ⟨_, List.mem_of_getElem? hk, rfl⟩)
  refine h.holder_passes hk rfl rfl ⟨rfl, rfl, rfl, rfl⟩ rfl List.prefix_rfl rfl ?_ ?_
    (h.held.stay hk rfl)
    (fun hfree => absurd hfree (h.not_free hk rfl))
    ⟨hfits, ⟨hwhole.indexed, hwhole.messages_eq⟩, rfl, Dir.files_put ..⟩
  · exact (h.shared.only.put hmem _).mono (LogState.bases_subset hk rfl (.inr rfl) rfl)
  · have hnumbers : (LogState.numbers { s.goto k (.create pc' s.messages.length buf) with
        dir := s.dir.put s.messages.length (pc'.files size) }).Perm s.numbers :=
      LogState.numbers_perm hk rfl rfl rfl rfl
    exact hnumbers.trans h.shared.numbers

/-- **The segment is opened**, and the write goes into it. -/
theorem LogOk.create_opened (h : LogOk size s m) (hsmall : size < 2 ^ 32) {buf : Buf}
    (hk : s.threads[k]? = some (.create .map s.messages.length buf)) (hfits : FitsLog size buf)
    (hwhole : s.Whole m) {g : SegState}
    (hg : segInit (Segment.fresh s.messages.length size sgmRddrt) s.threads.length = g) :
    LogOk size { s.goto k (.writing s.segs.length true buf) with
      segs := s.segs ++ [g.goto k (.markedOffset buf)] } s.segs.length := by
  obtain rfl := hwhole.indexed
  have hlt : k < s.threads.length := (List.getElem?_eq_some_iff.mp hk).1
  have hidle : ∀ i, i < s.threads.length → g.threads[i]? = some .idle := by
    intro i hi
    rw [← hg, segInit, List.getElem?_replicate, if_pos hi]
  have hwrite := segStep_write (hidle k hlt) buf
  have hseg : SegOk size s.threads.length s.messages.length g := by
    have h12 : headerSize = 12 := rfl
    have hle := hfits.2
    rw [← hg]
    exact ⟨.init _ (by omega), .init _ _ _, List.length_replicate⟩
  have hothers : ∀ i, i ≠ k → i < s.threads.length →
      (g.goto k (.markedOffset buf)).threads[i]? = some .idle := fun i hi hlti =>
    (segStep_others hwrite hi).trans (hidle i hlti)
  have hadds : Adds s
      { s.goto k (.writing s.segs.length true buf) with segs := s.segs ++
        [g.goto k (.markedOffset buf)] }
      (g.goto k (.markedOffset buf)) := ⟨rfl, rfl, rfl, rfl, rfl, rfl, by rw [← hg]; rfl⟩
  refine h.next_holder hk rfl
    (hadds.shared h.shared hk rfl rfl rfl rfl rfl rfl (hseg.step hsmall rfl hwrite).1 hothers) rfl
    (h.held.stay hk rfl) (fun hfree => absurd hfree (h.not_free hk rfl)) ?_ (fun j g' hg' hne => ?_)
    (hadds.later hothers)
  · refine ⟨hfits, hadds.length_eq.symm, _, .markedOffset buf, hadds.get_new,
      goto_self (hidle k hlt) _, rfl, ⟨rfl, hadds.claims_eq⟩, ?_⟩
    rw [hadds.messages_eq, hadds.appended_eq]
    exact hwhole.messages_eq.trans (List.append_nil _).symm
  · rcases hadds.get_cases hg' with hold | ⟨rfl, -⟩
    · exact h.placed k _ hk j g' hold (LogPc.addr_ne rfl j)
    · exact absurd rfl hne

/-- **The creation of a segment**, where none is yet. -/
theorem LogOk.create (h : LogOk size s m) (hmod : size % page.bytes = 0) (hsmall : size < 2 ^ 32)
    {pc : OpenPc} {baseOffset : Nat} {buf : Buf}
    (hk : s.threads[k]? = some (.create pc baseOffset buf)) :
    s.Goes page size k (.create pc baseOffset buf) := by
  obtain ⟨hfits, hwhole, rfl, hfiles⟩ := h.pcs k _ hk
  have h12 : headerSize = 12 := rfl
  have h0 : 0 < size := by
    have hle := hfits.2
    omega
  have hstep : openStep page (s.dir.files s.messages.length) s.messages.length (s.size % 2 ^ 32)
      (if s.flags &&& mqlogRdcmt = mqlogRdcmt then sgmRdcmt else sgmRddrt) pc =
      openStep page (pc.files size) s.messages.length size sgmRddrt pc := by
    rw [hfiles, h.shared.size_eq, h.shared.flags_eq, if_neg (by decide), Nat.mod_eq_of_lt hsmall]
  rcases openStep_files s.messages.length sgmRddrt h0 hmod pc with ⟨pc', hopen⟩ | ⟨rfl, hopen⟩
  · have haccess : s.access page k (.create pc s.messages.length buf) =
        some { s.goto k (.create pc' s.messages.length buf) with
          dir := s.dir.put s.messages.length (pc'.files size) } := by
      rw [LogState.access, LogState.createStep, hstep.trans hopen]
    exact ⟨_, m, haccess, h.create_next hk hfits hwhole⟩
  · have haccess : s.access page k (.create .map s.messages.length buf) =
        ({ s with
            dir := s.dir.put s.messages.length (OpenPc.map.files size)
            segs := s.segs ++
              [segInit (Segment.fresh s.messages.length size sgmRddrt) s.threads.length] }.goto
          k (.writing s.segs.length true buf)).inSegment k s.segs.length (.write buf) := by
      rw [LogState.access, LogState.createStep, hstep.trans hopen]
    rw [← hfiles, Dir.put_files] at haccess
    generalize hg : segInit (Segment.fresh s.messages.length size sgmRddrt) s.threads.length =
      g at haccess
    have hidle : g.threads[k]? = some .idle := by
      rw [← hg, segInit, List.getElem?_replicate, if_pos (List.getElem?_eq_some_iff.mp hk).1]
    refine ⟨_, s.segs.length, ?_, h.create_opened hsmall hk hfits hwhole hg⟩
    refine haccess.trans ((inSegment_eq (g := g) List.getElem?_concat_length (beyond_idle hidle)
      (segStep_write hidle buf)).trans ?_)
    simp only [LogState.goto, List.set_append_right _ _ (Nat.le_refl _), Nat.sub_self,
      List.set_cons_zero]

end Create

/-! ## The writer -/

/-- A thread that stays where it is. -/
theorem set_threads {s : LogState} {k : Nat} {pc : LogPc} (hk : s.threads[k]? = some pc) :
    s.threads = s.threads.set k pc := by
  obtain ⟨hlt, hget⟩ := List.getElem?_eq_some_iff.mp hk
  rw [← hget, List.set_getElem_self]

/-- Thread `k` is at `pc` in `segment_write`, in the segment at `addr`, and its access there leads
    to `g'`. -/
structure WriterAt (size : Nat) (s : LogState) (m k addr : Nat) (newSegment : Bool) (buf : Buf)
    (g g' : SegState) (pc : SegPc) : Prop where
  ok : LogOk size s m
  point : s.threads[k]? = some (.writing addr newSegment buf)
  get : s.segs[addr]? = some g
  thread : g.threads[k]? = some pc
  step : segStep g (k, .access) = some g'
  fits : FitsLog size buf
  last : addr + 1 = s.segs.length
  writer : WriterOk g buf pc
  indexed : if newSegment then m = addr ∧ FirstOk g buf pc else m = s.segs.length
  messages_eq : s.messages = s.appended ++ pc.inFlight
  writes : WriterStep g k buf g' pc
  reads : readsSealed g (k, .access) = false

namespace WriterAt

variable {page : PageSize} {size : Nat} {s : LogState} {m k addr : Nat} {newSegment : Bool}
  {buf : Buf} {g g' : SegState} {pc : SegPc} {pc' : LogPc}

/-- The step of the thread in the log. -/
theorem access_eq (page : PageSize) (h : WriterAt size s m k addr newSegment buf g g' pc)
    (hroom : g.beyond k = false) :
    s.access page k (.writing addr newSegment buf) =
      if g'.threads[k]? = some .idle then
        some ({ s with segs := s.segs.set addr g' }.written k addr newSegment buf (writeCode pc))
      else some { s with segs := s.segs.set addr g' } := by
  have hlt := (List.getElem?_eq_some_iff.mp h.get).1
  rw [LogState.access, h.get]
  simp only [Option.bind_eq_bind, Option.bind_some, h.thread, inSegment_eq h.get hroom h.step,
    List.getElem?_set_self hlt]
  rfl

/-- The log after the access, with the thread at any point. -/
theorem inSegment (h : WriterAt size s m k addr newSegment buf g g' pc) (pc' : LogPc) :
    InSegment s ({ s with segs := s.segs.set addr g' }.goto k pc') addr g g' :=
  ⟨rfl, rfl, rfl, rfl, h.get, rfl⟩

/-- The writer is in the last segment. -/
theorem length_eq (h : WriterAt size s m k addr newSegment buf g g' pc) :
    addr + 1 = (s.segs.set addr g').length := by
  rw [List.length_set]
  exact h.last

/-- The messages, when none was claimed. -/
theorem messages_stay (h : WriterAt size s m k addr newSegment buf g g' pc)
    (hclaims : g'.claims = g.claims) :
    image SegState.messages (s.segs.set addr g') = s.messages := by
  have heq := (h.inSegment .idle).messages_eq h.last (l := [])
    (by rw [List.append_nil, SegState.messages, hclaims]; rfl)
  rw [List.append_nil] at heq
  exact heq

/-- **The writer goes on to `pc'`** in the log, and the invariant holds there. -/
theorem next (h : WriterAt size s m k addr newSegment buf g g' pc) (pc' : LogPc)
    (hsmall : size < 2 ^ 32) (hpass : Passes (.writing addr newSegment buf) pc')
    (hholds : pc'.holds = true) (hpc' : pc'.addr = some addr ∨ g'.threads[k]? = some .idle)
    (hok : PcOk size ({ s with segs := s.segs.set addr g' }.goto k pc') m k pc') :
    LogOk size ({ s with segs := s.segs.set addr g' }.goto k pc') m :=
  h.ok.writer_step hsmall h.point rfl (h.inSegment pc') h.last h.step h.reads rfl hpass rfl hholds
    rfl rfl
    (fun _ hj heq => hj (Option.some.inj heq).symm) hpc' hok

/-- **The thread is still in `segment_write`.** -/
theorem goes_on (h : WriterAt size s m k addr newSegment buf g g' pc) (hsmall : size < 2 ^ 32)
    (hroom : g.beyond k = false) {q : SegPc} {l : List Buf}
    (hthreads : g'.threads = g.threads.set k q) (hwriter : WriterOk g' buf q)
    (hclaims : payloads g'.claims = payloads g.claims ++ l) (hflight : q.inFlight = pc.inFlight ++
      l) : s.Goes page size k (.writing addr newSegment buf) := by
  have hthread : g'.threads[k]? = some q := by
    rw [hthreads, List.getElem?_set_self (List.getElem?_eq_some_iff.mp h.thread).1]
  have hne : g'.threads[k]? ≠ some .idle := by
    rw [hthread]
    intro heq
    rw [Option.some.inj heq] at hwriter
    exact hwriter
  have haccess := h.access_eq page hroom
  rw [if_neg hne] at haccess
  refine ⟨_, m, haccess, ?_⟩
  have hgoto : ({ s with segs := s.segs.set addr g' } : LogState) =
      { s with segs := s.segs.set addr g' }.goto k (.writing addr newSegment buf) := by
    rw [LogState.goto, ← set_threads h.point]
  rw [hgoto]
  refine h.next _ hsmall ⟨rfl, rfl, rfl⟩ rfl (.inl rfl)
    ⟨h.fits, h.length_eq, g', q, (h.inSegment _).get_self, hthread, hwriter, ?_, ?_⟩
  · have hindexed := h.indexed
    cases newSegment with
    | false => exact hindexed.trans (h.inSegment .idle).length_eq.symm
    | true =>
      refine ⟨hindexed.1, ?_⟩
      have hserial := (h.ok.shared.segs addr g h.get).serial
      rcases hindexed.2.step hserial hsmall h.fits.2 h.writes with ⟨q', hok, hthreads'⟩ |
        ⟨c, rfl, -, -⟩
      · have hthread' : g'.threads[k]? = some q' := by
          rw [hthreads', List.getElem?_set_self (List.getElem?_eq_some_iff.mp h.thread).1]
        rw [hthread] at hthread'
        rw [Option.some.inj hthread']
        exact hok
      · -- there is no store left, so that the access is the last one
        have hstep := h.step
        simp only [segStep, h.thread, SegState.access] at hstep
        cases hstep
        exact absurd (goto_self h.thread _) hne
  · rw [(h.inSegment _).messages_eq h.last hclaims, h.messages_eq, List.append_assoc, ← hflight]
    rfl

/-- **There is no capacity left**, and the segment is not a new one. -/
theorem full (h : WriterAt size s m k addr newSegment buf g g' pc) (hsmall : size < 2 ^ 32)
    (hroom : g.beyond k = false) (heq : g' = g.goto k .idle) (hcode : writeCode pc = ELEOS)
    (hflight : pc.inFlight = []) (hfirst : ¬ FirstOk g buf pc) :
    s.Goes page size k (.writing addr newSegment buf) := by
  have hidle : g'.threads[k]? = some .idle := by
    rw [heq]
    exact goto_self h.thread _
  have haccess := h.access_eq page hroom
  rw [if_pos hidle, hcode] at haccess
  have hindexed := h.indexed
  cases newSegment with
  | true => exact absurd hindexed.2 hfirst
  | false =>
    refine ⟨_, m, haccess, h.next (.writeOffset addr buf) hsmall ⟨rfl, rfl, rfl⟩ rfl (.inr hidle)
      ⟨h.fits, ⟨hindexed.trans (h.inSegment .idle).length_eq.symm, ?_⟩, h.length_eq⟩⟩
    have hmessages := h.messages_eq
    rw [hflight, List.append_nil] at hmessages
    exact (h.messages_stay (by rw [heq]; rfl)).trans hmessages

/-- **The payload is stored.** -/
theorem stored (h : WriterAt size s m k addr newSegment buf g g' pc) (hsmall : size < 2 ^ 32)
    (hroom : g.beyond k = false) {c : Claim} (heq : g' = g.goto k .idle) (hpc : pc = .storing c [])
    (hframe : c.frame = some buf) : s.Goes page size k (.writing addr newSegment buf) := by
  have hidle : g'.threads[k]? = some .idle := by
    rw [heq]
    exact goto_self h.thread _
  have hcode : writeCode pc = (buf.1.length : Int) := by
    rw [hpc, writeCode, hframe]
    exact toSsize_of_lt buf.2
  have hneg : ¬ (buf.1.length : Int) = ELEOS := by
    show ¬ (buf.1.length : Int) = -20
    omega
  have hmessages : image SegState.messages (s.segs.set addr g') = s.appended ++ [buf] := by
    have hflight : pc.inFlight = [buf] := by
      rw [hpc]
      exact List.filterMap_cons_some hframe
    rw [h.messages_stay (by rw [heq]; rfl), h.messages_eq, hflight]
  have haccess := h.access_eq page hroom
  rw [if_pos hidle, hcode, LogState.written, if_neg fun hand => hneg hand.1, if_neg hneg] at haccess
  have hindexed := h.indexed
  cases newSegment with
  | false =>
    exact ⟨_, m, haccess, h.next (.unlockWrite buf _) hsmall ⟨rfl, rfl, rfl⟩ rfl (.inr hidle)
      ⟨h.fits, hindexed.trans (h.inSegment .idle).length_eq.symm, rfl, hmessages⟩⟩
  | true =>
    obtain ⟨hm, hfirst⟩ := hindexed
    rw [hpc] at hfirst
    have hstarted : g'.Started := by
      have hseg := h.ok.shared.segs addr g h.get
      have hsole : (g.goto k .idle).Sole k := (h.ok.sole h.point rfl h.get).set rfl fun hwriting =>
        absurd hwriting Bool.false_ne_true
      have hleft : (g.goto k .idle).left c = [] :=
        hsole.left_eq (goto_self h.thread .idle) (fun _ _ => SegPc.noConfusion) c
      have hserial := (hseg.step hsmall h.reads h.step).1.serial
      rw [heq] at hserial ⊢
      exact ⟨buf, hserial.started hfirst.1 hframe hleft⟩
    exact ⟨_, m, haccess, h.next (.indexing addr buf _) hsmall ⟨rfl, rfl, rfl⟩ rfl (.inr hidle)
      ⟨h.fits, h.length_eq, hm, rfl, hmessages, g', (h.inSegment .idle).get_self, hstarted⟩⟩

end WriterAt

/-- **A step in `segment_write`.** -/
theorem LogOk.writing {page : PageSize} {size : Nat} {s : LogState} {m k addr : Nat}
    {newSegment : Bool} {buf : Buf} (h : LogOk size s m) (hsmall : size < 2 ^ 32)
    (hroom : ¬ s.Beyond k) (hk : s.threads[k]? = some (.writing addr newSegment buf)) :
    s.Goes page size k (.writing addr newSegment buf) := by
  obtain ⟨hfits, hlast, g, pc, hg, hthread, hwriter, hnew, hmessages⟩ := h.pcs k _ hk
  have hne : pc ≠ .idle := by
    rintro rfl
    exact hwriter
  obtain ⟨g', haccess⟩ := g.exists_access k hne
  have hstep : segStep g (k, .access) = some g' := by
    simp only [segStep, hthread]
    exact haccess
  obtain ⟨hwstep, hreads⟩ :=
    hwriter.step (h.shared.segs addr g hg).serial hsmall (h.sole hk rfl hg) hthread hstep
  have hwrites : WriterAt size s m k addr newSegment buf g g' pc :=
    ⟨h, hk, hg, hthread, hstep, hfits, hlast, hwriter, hnew, hmessages, hwstep, hreads⟩
  have hroom' := not_beyond hroom hg
  rcases hwstep.outcome hwriter with ⟨q, l, hthreads, hwriter', hclaims, hflight⟩ |
    ⟨heq, hcode, hflight, hfirst⟩ | ⟨c, heq, hpc, hframe⟩
  · exact hwrites.goes_on hsmall hroom' hthreads hwriter' hclaims hflight
  · exact hwrites.full hsmall hroom' heq hcode hflight hfirst
  · exact hwrites.stored hsmall hroom' heq hpc hframe

/-! ## The readers -/

/-- **The segment is found**, and `segment_read` is called. -/
theorem LogOk.value {page : PageSize} {size : Nat} {s : LogState} {m k offset known : Nat}
    (h : LogOk size s m) (hsmall : size < 2 ^ 32) {it : LeafIterator}
    (hk : s.threads[k]? = some (.value offset known it)) :
    s.Goes page size k (.value offset known it) := by
  obtain ⟨j, g, hj, hg, hle, hkept, before, post, hstands⟩ := h.pcs k _ hk
  have hvalue := (hstands.cursor three_le_branchFactor).key_value.2
  have hidle := h.placed k _ hk j g hg (LogPc.addr_ne rfl j)
  have hbase : segmentBaseOffset g.sgm = s.base j := (h.shared.segs j g hg).base_eq
  have hstep := segStep_read hidle (offset - s.base j)
  have hin : InSegment s
      { s.goto k (.reading offset known j) with
        segs := s.segs.set j (g.goto k (.boundary (offset - s.base j))) }
      j g (g.goto k (.boundary (offset - s.base j))) := ⟨rfl, rfl, rfl, rfl, hg, rfl⟩
  have hleft : ∀ c, (g.goto k (.boundary (offset - s.base j))).left c = g.left c := fun c =>
    left_of_moves (fun c' rest hstoring => by rw [hidle] at hstoring; cases hstoring) rfl
      (fun _ _ => SegPc.noConfusion) c
  have hbase' := hin.base_eq (.inr rfl) hin.lt
  refine ⟨_, m, ?_, h.reader_step hsmall hk rfl hin hstep rfl rfl rfl hleft rfl ⟨rfl, rfl, rfl⟩ rfl
    rfl rfl rfl
    (fun j _ => LogPc.addr_ne rfl j) (.inl rfl) ⟨_, .boundary (offset - s.base j), hj,
      hin.get_self, ?_, goto_self hidle _, ?_, fun hknown => ?_⟩⟩
  · rw [LogState.access, hvalue]
    simp only [Option.bind_eq_bind, Option.bind_some, hg, hbase]
    exact inSegment_eq (s := s.goto k (.reading offset known j)) hg (beyond_idle hidle) hstep
  · rw [hbase']
    exact hle
  · rw [hbase']
    rfl
  · obtain ⟨c, hc, hframe, hindex, hnone⟩ := hkept hknown
    exact ⟨c, hc, hframe, (hleft c).trans hnone, hindex.symm⟩

/-- Thread `k` is at `pc` in `segment_read`, in the segment at `addr`, and its access there leads to
    `g'`. -/
structure ReaderAt (size : Nat) (s : LogState) (m k offset known addr : Nat) (g g' : SegState)
    (pc : SegPc) :
    Prop where
  ok : LogOk size s m
  point : s.threads[k]? = some (.reading offset known addr)
  lt : addr < m
  get : s.segs[addr]? = some g
  le : s.base addr ≤ offset
  thread : g.threads[k]? = some pc
  reads : pc.reads = some (offset - s.base addr)
  sees : offset < known → ∃ c ∈ g.claims, c.frame ≠ none ∧ g.left c = [] ∧ Sees c pc
  step : segStep g (k, .access) = some g'

namespace ReaderAt

variable {page : PageSize} {size : Nat} {s : LogState} {m k offset known addr : Nat}
  {g g' : SegState} {pc : SegPc} {pc' : LogPc}

/-- The step of the thread in the log. -/
theorem access_eq (page : PageSize) (h : ReaderAt size s m k offset known addr g g' pc)
    (hroom : g.beyond k = false) :
    s.access page k (.reading offset known addr) =
      if g'.threads[k]? = some .idle then
        g'.returned.getLast?.map fun r => { s with segs := s.segs.set addr g' }.goto k
          (.returning (.read offset known r.rc (some (addr, r.fr))))
      else some { s with segs := s.segs.set addr g' } := by
  have hlt := (List.getElem?_eq_some_iff.mp h.get).1
  rw [LogState.access]
  simp only [Option.bind_eq_bind, inSegment_eq h.get hroom h.step, Option.bind_some,
    List.getElem?_set_self hlt]
  split
  · rw [Option.map_eq_bind]
    rfl
  · rfl

/-- The log after the access, with the thread at any point. -/
theorem inSegment (h : ReaderAt size s m k offset known addr g g' pc) (pc' : LogPc) :
    InSegment s ({ s with segs := s.segs.set addr g' }.goto k pc') addr g g' :=
  ⟨rfl, rfl, rfl, rfl, h.get, rfl⟩

/-- A reader moves no segment. -/
theorem base_eq (h : ReaderAt size s m k offset known addr g g' pc) (hclaims : g'.claims = g.claims)
    (pc' : LogPc) : ({ s with segs := s.segs.set addr g' }.goto k pc').base addr = s.base addr :=
  (h.inSegment pc').base_eq (.inr hclaims) (h.inSegment pc').lt

/-- **The reader goes on to `pc'`** in the log, and the invariant holds there. -/
theorem next (h : ReaderAt size s m k offset known addr g g' pc) (hsmall : size < 2 ^ 32)
    (hsgm : g'.sgm = g.sgm) (hclaims : g'.claims = g.claims) (hleft : ∀ c, g'.left c = g.left c)
    (hpass : Passes (.reading offset known addr) pc') (hholds : pc'.holds = false)
    (hpc' : pc'.addr = some addr ∨ g'.threads[k]? = some .idle)
    (hok : PcOk size ({ s with segs := s.segs.set addr g' }.goto k pc') m k pc') :
    LogOk size ({ s with segs := s.segs.set addr g' }.goto k pc') m :=
  h.ok.reader_step hsmall h.point rfl (h.inSegment pc') h.step
    (readsSealed_of_reads h.reads h.thread) hsgm
    hclaims hleft rfl hpass rfl hholds rfl rfl (fun _ hj heq => hj (Option.some.inj heq).symm)
      hpc' hok

/-- What the reader of an appended message sees next. -/
theorem sees_step (h : ReaderAt size s m k offset known addr g g' pc) (hknown : offset < known) :
    ∃ c buf, c ∈ g.claims ∧ c.frame = some buf ∧ g.left c = [] ∧
      ((∃ q, Sees c q ∧ g' = g.goto k q) ∨
        ∃ fr, g' = g.answer k c.base.index (buf.1.length : Int) fr) := by
  obtain ⟨c, hc, hframe, hleft, hsees⟩ := h.sees hknown
  obtain ⟨buf, hbuf⟩ := Option.ne_none_iff_exists'.mp hframe
  exact ⟨c, buf, hc, hbuf, hleft,
    hsees.step (h.ok.shared.segs addr g h.get).publish hc hbuf hleft h.thread h.step⟩

/-- **The thread is still in `segment_read`.** -/
theorem goes_on (h : ReaderAt size s m k offset known addr g g' pc) (hsmall : size < 2 ^ 32)
    (hroom : g.beyond k = false) {q : SegPc} (hreads : q.reads = some (offset - s.base addr))
    (heq : g' = g.goto k q) : s.Goes page size k (.reading offset known addr) := by
  have hthread : g'.threads[k]? = some q := by
    rw [heq]
    exact goto_self h.thread q
  have hstoring : q.isStoring = false := by
    cases q with
    | storing _ _ => cases hreads
    | idle | markedOffset _ | markedFlags _ _ | writeOffset _ | claiming _ _ | boundary _
    | entries _ _
    | entry _ _ | flags _ _ | size _ _ => rfl
  have hne : q ≠ .idle := by
    rintro rfl
    cases hreads
  have hleft : ∀ c, g'.left c = g.left c :=
    left_of_reads h.reads h.thread (by rw [heq]; rfl) hstoring
  have hclaims : g'.claims = g.claims := by
    rw [heq]
    rfl
  have haccess := h.access_eq page hroom
  rw [if_neg (by rw [hthread]; exact fun hidle => hne (Option.some.inj hidle))] at haccess
  have hgoto : ({ s with segs := s.segs.set addr g' } : LogState) =
      { s with segs := s.segs.set addr g' }.goto k (.reading offset known addr) := by
    rw [LogState.goto, ← set_threads h.point]
  have hbase := h.base_eq hclaims (.reading offset known addr)
  refine ⟨_, m, haccess, ?_⟩
  rw [hgoto]
  refine h.next hsmall (by rw [heq]; rfl) hclaims hleft ⟨rfl, rfl, rfl⟩ rfl (.inl rfl)
    ⟨g', q, h.lt, (h.inSegment _).get_self, ?_, hthread, ?_, fun hknown => ?_⟩
  · rw [hbase]
    exact h.le
  · rw [hbase]
    exact hreads
  · obtain ⟨c, buf, hc, hbuf, hnone, hsees⟩ := h.sees_step hknown
    refine ⟨c, hclaims ▸ hc, by rw [hbuf]; exact Option.some_ne_none _, (hleft c).trans hnone, ?_⟩
    rcases hsees with ⟨q', hsees, heq'⟩ | ⟨fr, heq'⟩
    · rw [heq', goto_self h.thread q'] at hthread
      rwa [← Option.some.inj hthread]
    · -- a thread that has returned is idle
      rw [heq'] at hthread
      exact absurd (Option.some.inj (hthread.symm.trans (goto_self h.thread .idle))) hne

/-- A read that is told that there is no message was called before it was appended. -/
theorem known_le (h : ReaderAt size s m k offset known addr g g' pc) {fr : Frame}
    (heq : g' = g.answer k (offset - s.base addr) ELNORD fr) : known ≤ offset := by
  have hidle : g'.threads[k]? = some .idle := by
    rw [heq]
    exact goto_self h.thread .idle
  by_contra hknown
  obtain ⟨c, buf, -, -, -, hsees⟩ := h.sees_step (Nat.lt_of_not_le hknown)
  rcases hsees with ⟨q, hsees, heq'⟩ | ⟨fr', heq'⟩
  · rw [heq', goto_self h.thread q] at hidle
    rw [Option.some.inj hidle] at hsees
    exact hsees
  · have hlast : g'.returned.getLast? = some ⟨offset - s.base addr, ELNORD, fr⟩ := by
      rw [heq]
      exact List.getLast?_concat
    have hlast' : g'.returned.getLast? = some ⟨c.base.index, buf.1.length, fr'⟩ := by
      rw [heq']
      exact List.getLast?_concat
    have hcode : (ELNORD : Int) = (buf.1.length : Int) :=
      congrArg Returned.rc (Option.some.inj (hlast.symm.trans hlast'))
    have hnord : ELNORD = -12 := rfl
    omega

/-- **The thread returns from `segment_read`.** -/
theorem returns (h : ReaderAt size s m k offset known addr g g' pc) (hsmall : size < 2 ^ 32)
    (hroom : g.beyond k = false) {rc : Int} {fr : Frame} (hrc : rc = ELNORD ∨ 0 ≤ rc)
    (heq : g' = g.answer k (offset - s.base addr) rc fr) :
    s.Goes page size k (.reading offset known addr) := by
  have hidle : g'.threads[k]? = some .idle := by
    rw [heq]
    exact goto_self h.thread .idle
  have hlast : g'.returned.getLast? = some ⟨offset - s.base addr, rc, fr⟩ := by
    rw [heq]
    exact List.getLast?_concat
  have hclaims : g'.claims = g.claims := by
    rw [heq]
    rfl
  have haccess := h.access_eq page hroom
  rw [if_pos hidle, hlast, Option.map_some] at haccess
  refine ⟨_, m, haccess, h.next hsmall (by rw [heq]; rfl) hclaims
    (left_of_reads h.reads h.thread (by rw [heq]; rfl) rfl) ⟨rfl, rfl, rfl⟩ rfl (.inr hidle) ?_⟩
  -- a code that is not negative is that of a message which is shown
  have hseg := h.ok.shared.segs addr g h.get
  have hpublish := (hseg.step hsmall (readsSealed_of_reads h.reads h.thread) h.step).1.publish
  have hshown := hpublish.returned _ (List.mem_of_getLast? hlast)
  rcases hrc with rfl | hpos
  · exact .inr (.inl ⟨rfl, h.known_le heq⟩)
  · obtain ⟨hdr, buf, hmessage, hcode, hfr⟩ := hshown hpos
    have hbase := h.base_eq hclaims (.returning (.read offset known rc (some (addr, fr))))
    refine .inr (.inr ⟨addr, _, hdr, buf, (h.inSegment _).get_self, ?_, ?_, hcode, ?_⟩)
    · rw [hbase]
      exact h.le
    · rw [hbase]
      exact hmessage
    · rw [show fr = ⟨some hdr, some (hdr + headerSize)⟩ from hfr]

end ReaderAt

/-- **A step in `segment_read`.** -/
theorem LogOk.reading {page : PageSize} {size : Nat} {s : LogState} {m k offset known addr : Nat}
    (h : LogOk size s m) (hsmall : size < 2 ^ 32) (hroom : ¬ s.Beyond k)
    (hk : s.threads[k]? = some (.reading offset known addr)) :
    s.Goes page size k (.reading offset known addr) := by
  obtain ⟨g, pc, haddr, hg, hle, hthread, hreads, hsees⟩ := h.pcs k _ hk
  have hne : pc ≠ .idle := by
    rintro rfl
    cases hreads
  obtain ⟨g', haccess⟩ := g.exists_access k hne
  have hstep : segStep g (k, .access) = some g' := by
    simp only [segStep, hthread]
    exact haccess
  have hread : ReaderAt size s m k offset known addr g g' pc :=
    ⟨h, hk, haddr, hg, hle, hthread, hreads, hsees, hstep⟩
  have hroom' := not_beyond hroom hg
  rcases reading_step (h.shared.segs addr g hg).publish (h.shared.started addr g haddr hg) hreads
    hthread hstep
    with ⟨q, hreads', heq⟩ | ⟨rc, fr, hrc, heq⟩
  · exact hread.goes_on hsmall hroom' hreads' heq
  · exact hread.returns hsmall hroom' hrc heq

/-! ## All steps -/

/-- **Every step of a thread in one of the functions goes through**, unless it is an access behind
    the end of an index file, and keeps the invariant. -/
theorem LogOk.goes {page : PageSize} {size : Nat} {s : LogState} {m k : Nat} {pc : LogPc}
    (h : LogOk size s m) (hmod : size % page.bytes = 0) (hsmall : size < 2 ^ 32)
    (hroom : ¬ s.Beyond k) (hk : s.threads[k]? = some pc) (hne : pc ≠ .idle) :
    s.Goes page size k pc := by
  cases pc with
  | idle => exact absurd rfl hne
  | lockWrite buf => exact h.lockWrite hk
  | lastValue buf => exact h.lastValue hsmall hk
  | create pc baseOffset buf => exact h.create hmod hsmall hk
  | writing addr newSegment buf => exact h.writing hsmall hroom hk
  | writeOffset addr buf => exact h.writeOffset hk
  | indexing addr buf written => exact h.indexing hk
  | closing addr buf rc => exact (h.pcs k _ hk).elim
  | unlockWrite buf rc => exact h.unlockWrite hk
  | lockRead offset known => exact h.lockRead hk
  | floor offset known => exact h.floor hk
  | unlockRead offset known it => exact h.unlockRead hk
  | value offset known it => exact h.value hsmall hk
  | reading offset known addr => exact h.reading hsmall hroom hk
  | returning r => exact h.returning hk

/-- A step that was made was not behind the end of an index file. -/
theorem LogOk.not_beyond {page : PageSize} {size : Nat} {s s' : LogState} {m k : Nat} {pc : LogPc}
    (h : LogOk size s m) (hk : s.threads[k]? = some pc) (haccess : s.access page k pc = some s') :
    ¬ s.Beyond k := by
  rintro ⟨addr, g, hg, hbeyond⟩
  -- the thread is in this segment
  have haddr : pc.addr = some addr := by
    by_contra hne
    have hidle := h.placed k pc hk addr g hg hne
    rw [beyond_idle hidle] at hbeyond
    cases hbeyond
  have hnone : s.inSegment k addr .access = none := by
    rw [LogState.inSegment, hg]
    simp only [Option.bind_eq_bind, Option.bind_some, hbeyond, if_true]
  cases pc with
  | writing addr' newSegment buf =>
    cases haddr
    simp only [LogState.access, hnone, Option.bind_eq_bind, Option.bind_none,
      Option.bind_eq_some_iff] at haccess
    obtain ⟨-, -, -, -, hfalse⟩ := haccess
    cases hfalse
  | reading offset known addr' =>
    cases haddr
    simp only [LogState.access, hnone, Option.bind_eq_bind, Option.bind_none] at haccess
    cases haccess
  | idle | lockWrite _ | lastValue _ | create _ _ _ | writeOffset _ _ | indexing _ _ _
  | closing _ _ _
  | unlockWrite _ _ | lockRead _ _ | floor _ _ | unlockRead _ _ _ | value _ _ _ | returning _ =>
    cases haddr

end Mqlog
