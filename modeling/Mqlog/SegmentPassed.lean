/-
  What a sync of a segment does not come back to.

  Whatever other threads do meanwhile and whatever the system writes to disk, the synced offset
  moves up only (`MovesUp`), and never past the write offset (`SyncedUp`).  `msync` is called from
  the page of the synced offset on.  So what is below that page stays on disk as it is, unless the
  system writes it there by itself (`MovesOn`): a claim in flight that a sync has passed over is put
  on disk by no later one (`sync_moves_on`).

  The argument goes along the run.  A call of `msync` that is under way is about what is between the
  page of the synced offset and the write offset (`Pending`), so that its return moves the synced
  offset up, and what it waits for lies behind that page.  Each kind of step keeps this
  (`SyncedUp.thread`, `SyncedUp.access`, `SyncedUp.writeByte`, `SyncedUp.writeEntry`), and
  `SyncedUp.step` puts them together.

  There are two conditions on a run, one for each part of the result.

    * `Unsealed`: the threads claim in front of the seal only.  Along such a run the synced offset
      moves up, for the data and for the index.
    * `Forced`: besides, the system writes nothing to disk but what `msync` waits for.  Along such a
      run what is below the page of the synced offset stays on disk as it is.

  The second part of the file is a run in which the synced offset passes a page: one thread fills
  more than a page of the data and more than one of the index with messages of one byte, and syncs
  them.  The run is not evaluated, as it has some ten thousand steps: `Filled` is what is left of
  it, with a lemma for one more message and one for a sync.
-/
import Mqlog.SegmentDurable
import Mqlog.SegmentSolo

namespace Mqlog

open Lib (run Along)
open Lib.Mem Lib.Records

/-- The threads claim in front of the seal only. -/
def Unsealed (s : SyncState) : SyncAct → Prop
  | .thread i => readsSealed s.seg i = false
  | _ => True

/-- The threads claim in front of the seal only, and the system writes to disk what `msync` waits
    for. -/
def Forced (s : SyncState) : SyncAct → Prop
  | .thread i => readsSealed s.seg i = false
  | .writeByte p => p ∈ s.sync.bytesLeft
  | .writeEntry i => i ∈ s.sync.entriesLeft
  | _ => True

instance (s : SyncState) : ∀ act : SyncAct, Decidable (Unsealed s act)
  | .thread _ => inferInstanceAs (Decidable (_ = _))
  | .sync | .access _ | .writeByte _ | .writeEntry _ => isTrue trivial

instance (s : SyncState) : ∀ act : SyncAct, Decidable (Forced s act)
  | .thread _ => inferInstanceAs (Decidable (_ = _))
  | .writeByte _ | .writeEntry _ => inferInstanceAs (Decidable (_ ∈ _))
  | .sync | .access _ => isTrue trivial

/-- A step in which the pages are forced is one of an unsealed segment. -/
theorem Forced.unsealed {s : SyncState} {act : SyncAct} (h : Forced s act) : Unsealed s act := by
  cases act with
  | thread i => exact h
  | sync | access _ | writeByte _ | writeEntry _ => trivial

/-- A call of `msync` is about what is between the page of the synced offset and the write
    offset. -/
def Pending (page : PageSize) (sgm : Segment) : SyncPc → Prop
  | .msyncData _ wOffset _ left =>
    sgm.sOffset.data ≤ wOffset ∧ wOffset ≤ sgm.wOffset.data ∧ ∀ p ∈ left, syncStart page sgm ≤ p
  | .msyncIndex _ wIndex _ left =>
    sgm.sOffset.index ≤ wIndex ∧ wIndex ≤ sgm.wOffset.index ∧
      ∀ i ∈ left, syncStartIndex page sgm ≤ i
  | _ => True

/-- The synced offset is behind the write offset. -/
structure SyncedUp (page : PageSize) (size : Nat) (s : SyncState) : Prop where
  serial : SerialInv size s.seg.sgm.cleared s.seg
  data_le : s.seg.sgm.sOffset.data ≤ s.seg.sgm.wOffset.data
  index_le : s.seg.sgm.sOffset.index ≤ s.seg.sgm.wOffset.index
  pending : Pending page s.seg.sgm s.sync

/-- The synced offset moves up. -/
structure MovesUp (sgm sgm' : Segment) : Prop where
  data_le : sgm.sOffset.data ≤ sgm'.sOffset.data
  index_le : sgm.sOffset.index ≤ sgm'.sOffset.index

theorem MovesUp.refl (sgm : Segment) : MovesUp sgm sgm := ⟨Nat.le_refl _, Nat.le_refl _⟩

theorem MovesUp.trans {sgm sgm' sgm'' : Segment} (h : MovesUp sgm sgm') (h' : MovesUp sgm' sgm'') :
    MovesUp sgm sgm'' := ⟨Nat.le_trans h.data_le h'.data_le, Nat.le_trans h.index_le h'.index_le⟩

/-- The synced offset moves up, and what is below its page stays on disk as it is. -/
structure MovesOn (page : PageSize) (sgm sgm' : Segment) : Prop extends MovesUp sgm sgm' where
  start_le : syncStart page sgm ≤ syncStart page sgm'
  startIndex_le : syncStartIndex page sgm ≤ syncStartIndex page sgm'
  data : ∀ p, p < syncStart page sgm → sgm'.dataDisk p = sgm.dataDisk p
  index : ∀ i, i < syncStartIndex page sgm → sgm'.indexDisk i = sgm.indexDisk i

namespace MovesOn

variable {page : PageSize} {sgm sgm' sgm'' : Segment}

theorem trans (h : MovesOn page sgm sgm') (h' : MovesOn page sgm' sgm'') :
    MovesOn page sgm sgm'' where
  toMovesUp := h.toMovesUp.trans h'.toMovesUp
  start_le := Nat.le_trans h.start_le h'.start_le
  startIndex_le := Nat.le_trans h.startIndex_le h'.startIndex_le
  data p hp := (h'.data p (Nat.lt_of_lt_of_le hp h.start_le)).trans (h.data p hp)
  index i hi := (h'.index i (Nat.lt_of_lt_of_le hi h.startIndex_le)).trans (h.index i hi)

/-- The synced offset and the disk stay as they are. -/
theorem stays (hs : sgm'.sOffset = sgm.sOffset) (hdata : sgm'.dataDisk = sgm.dataDisk)
    (hindex : sgm'.indexDisk = sgm.indexDisk) : MovesOn page sgm sgm' where
  data_le := by rw [hs]
  index_le := by rw [hs]
  start_le := by rw [syncStart, syncStart, hs]
  startIndex_le := by rw [syncStartIndex, syncStartIndex, hs]
  data p _ := by rw [hdata]
  index i _ := by rw [hindex]

/-- The synced offset alone moves. -/
theorem advance {o : OffsetPair} (hdata : sgm.sOffset.data ≤ o.data)
    (hindex : sgm.sOffset.index ≤ o.index) (hdata' : o.data < 2 ^ 32) (hindex' : o.index < 2 ^ 32) :
    MovesOn page sgm { sgm with sOffset := o } where
  data_le := hdata
  index_le := hindex
  start_le := pageAlignedAddr_mono page hdata (Nat.lt_trans hdata' (by decide))
  startIndex_le := Nat.div_le_div_right
    (pageAlignedAddr_mono page (Nat.mul_le_mul_left _ hindex) (entry_addr_lt hindex'))
  data _ _ := rfl
  index _ _ := rfl

end MovesOn

/-! ## The step lemma -/

section Step

variable {page : PageSize} {size : Nat} {s s' : SyncState}

/-- A thread that writes or reads makes a step. -/
theorem SyncedUp.thread (h : SyncedUp page size s) (hsmall : size < 2 ^ 31) {i : Nat × SegAct}
    (hok : readsSealed s.seg i = false) {seg : SegState} (hstep : segStep s.seg i = some seg) :
    SyncedUp page size { s with seg := seg } ∧ MovesOn page s.seg.sgm seg.sgm := by
  have hleaves := h.serial.leaves (by omega) hstep
  have hsOffset := hleaves.sOffset_eq
  have hserial : SerialInv size seg.sgm.cleared seg := by
    rw [hleaves.cleared]
    exact h.serial.step (by omega) hok hstep
  have hdata : seg.sgm.sOffset.data ≤ seg.sgm.wOffset.data := by
    rw [hsOffset]
    exact Nat.le_trans h.data_le hleaves.later.data_le
  have hindex : seg.sgm.sOffset.index ≤ seg.sgm.wOffset.index := by
    rw [hsOffset]
    exact Nat.le_trans h.index_le hleaves.later.index_le
  refine ⟨⟨hserial, hdata, hindex, ?_⟩, .stays hsOffset hleaves.dataDisk_eq hleaves.indexDisk_eq⟩
  have hpending := h.pending
  show Pending page seg.sgm s.sync
  cases hs : s.sync with
  | msyncData known wOffset syncSize left =>
    rw [hs] at hpending
    obtain ⟨hlo, hhi, hleft⟩ := hpending
    rw [Pending, syncStart, hsOffset]
    exact ⟨hlo, Nat.le_trans hhi hleaves.later.data_le, hleft⟩
  | msyncIndex known wIndex length left =>
    rw [hs] at hpending
    obtain ⟨hlo, hhi, hleft⟩ := hpending
    rw [Pending, syncStartIndex, hsOffset]
    exact ⟨hlo, Nat.le_trans hhi hleaves.later.index_le, hleft⟩
  | idle | dataOffset _ | indexOffset _ => trivial

/-- The thread that syncs makes an access. -/
theorem SyncedUp.access (h : SyncedUp page size s) (hsmall : size < 2 ^ 31) {msync : Bool}
    (hstep : s.access page msync = some s') : SyncedUp page size s' ∧
    MovesOn page s.seg.sgm s'.seg.sgm := by
  have hwritten := h.serial.seals.written_le
  have hwIndex := h.serial.index_lt (by omega)
  have hdata := h.data_le
  have hindex := h.index_le
  have hpending := h.pending
  have hstays : MovesOn page s.seg.sgm s.seg.sgm := .stays rfl rfl rfl
  cases hs : s.sync with
  | idle =>
    simp only [SyncState.access, hs] at hstep
    cases hstep
  | dataOffset known =>
    rw [access_dataOffset hs hdata (by omega)] at hstep
    cases hstep
    exact ⟨⟨h.serial, hdata, hindex, hdata, Nat.le_refl _, fun p hp => (List.mem_range'_1.mp hp).1⟩,
      hstays⟩
  | msyncData known wOffset syncSize left =>
    rw [hs] at hpending
    obtain ⟨hlo, hhi, -⟩ := hpending
    simp only [SyncState.access, hs] at hstep
    split at hstep
    · cases hstep
      exact ⟨⟨h.serial, hdata, hindex, trivial⟩, hstays⟩
    split at hstep
    · cases hstep
    have hmoves : MovesOn page s.seg.sgm { s.seg.sgm with
      sOffset := ⟨s.seg.sgm.sOffset.index, wOffset⟩ } :=
      .advance hlo (Nat.le_refl _) (by show wOffset < _; omega)
        (by show s.seg.sgm.sOffset.index < _; omega)
    split at hstep
    · cases hstep
      exact ⟨⟨h.serial.put .., hhi, hindex, trivial⟩, hmoves⟩
    · cases hstep
      exact ⟨⟨h.serial.put .., hhi, hindex, trivial⟩, hmoves⟩
  | indexOffset known =>
    rw [access_indexOffset hs hindex hwIndex] at hstep
    cases hstep
    exact ⟨⟨h.serial, hdata, hindex, hindex, Nat.le_refl _, fun i hi =>
      (List.mem_range'_1.mp hi).1⟩, hstays⟩
  | msyncIndex known wIndex length left =>
    rw [hs] at hpending
    obtain ⟨hlo, hhi, -⟩ := hpending
    simp only [SyncState.access, hs] at hstep
    split at hstep
    · cases hstep
      exact ⟨⟨h.serial, hdata, hindex, trivial⟩, hstays⟩
    split at hstep
    · cases hstep
    cases hstep
    refine ⟨⟨h.serial.put .., hdata, hhi, trivial⟩, .advance (Nat.le_refl _) hlo ?_ ?_⟩
    · show s.seg.sgm.sOffset.data < _
      omega
    · show wIndex < _
      omega

/-- A byte goes to disk. -/
theorem SyncedUp.writeByte (h : SyncedUp page size s) (p : Nat) :
    SyncedUp page size (s.writeByte p) ∧ MovesUp s.seg.sgm (s.writeByte p).seg.sgm ∧
      (p ∈ s.sync.bytesLeft → MovesOn page s.seg.sgm (s.writeByte p).seg.sgm) := by
  have hpending := h.pending
  refine ⟨⟨h.serial.put .., h.data_le, h.index_le, ?_⟩, ⟨Nat.le_refl _, Nat.le_refl _⟩,
    fun hp => ?_⟩
  · show Pending page (s.seg.byteOnDisk p).sgm (s.sync.wroteByte p)
    cases hs : s.sync with
    | msyncData known wOffset syncSize left =>
      rw [hs] at hpending
      obtain ⟨hlo, hhi, hleft⟩ := hpending
      exact ⟨hlo, hhi, fun q hq => hleft q (List.mem_filter.mp hq).1⟩
    | msyncIndex known wIndex length left =>
      rw [hs] at hpending
      exact hpending
    | idle | dataOffset _ | indexOffset _ => trivial
  · have hstart : syncStart page s.seg.sgm ≤ p := by
      cases hs : s.sync with
      | msyncData known wOffset syncSize left =>
        rw [hs] at hpending hp
        exact hpending.2.2 p hp
      | idle | dataOffset _ | indexOffset _ | msyncIndex _ _ _ _ =>
        rw [hs] at hp
        exact absurd hp List.not_mem_nil
    refine ⟨⟨Nat.le_refl _, Nat.le_refl _⟩, Nat.le_refl _, Nat.le_refl _, fun q hq => ?_,
      fun _ _ => rfl⟩
    show copy s.seg.sgm.dataDisk s.seg.sgm.buffer p 1 q = s.seg.sgm.dataDisk q
    rw [copy_one, if_neg (by omega)]

/-- An entry goes to disk. -/
theorem SyncedUp.writeEntry (h : SyncedUp page size s) (i : Nat) :
    SyncedUp page size (s.writeEntry i) ∧ MovesUp s.seg.sgm (s.writeEntry i).seg.sgm ∧
      (i ∈ s.sync.entriesLeft → MovesOn page s.seg.sgm (s.writeEntry i).seg.sgm) := by
  have hpending := h.pending
  refine ⟨⟨h.serial.put .., h.data_le, h.index_le, ?_⟩, ⟨Nat.le_refl _, Nat.le_refl _⟩,
    fun hi => ?_⟩
  · show Pending page (s.seg.entryOnDisk i).sgm (s.sync.wroteEntry i)
    cases hs : s.sync with
    | msyncIndex known wIndex length left =>
      rw [hs] at hpending
      obtain ⟨hlo, hhi, hleft⟩ := hpending
      exact ⟨hlo, hhi, fun j hj => hleft j (List.mem_filter.mp hj).1⟩
    | msyncData known wOffset syncSize left =>
      rw [hs] at hpending
      exact hpending
    | idle | dataOffset _ | indexOffset _ => trivial
  · have hstart : syncStartIndex page s.seg.sgm ≤ i := by
      cases hs : s.sync with
      | msyncIndex known wIndex length left =>
        rw [hs] at hpending hi
        exact hpending.2.2 i hi
      | idle | dataOffset _ | indexOffset _ | msyncData _ _ _ _ =>
        rw [hs] at hi
        exact absurd hi List.not_mem_nil
    refine ⟨⟨Nat.le_refl _, Nat.le_refl _⟩, Nat.le_refl _, Nat.le_refl _, fun _ _ => rfl,
      fun j hj => ?_⟩
    show copy s.seg.sgm.indexDisk s.seg.sgm.index i 1 j = s.seg.sgm.indexDisk j
    rw [copy_one, if_neg (by omega)]

/-- **The step lemma.** -/
theorem SyncedUp.step (h : SyncedUp page size s) (hsmall : size < 2 ^ 31) {act : SyncAct}
    (hok : Unsealed s act) (hstep : syncStep page s act = some s') :
    SyncedUp page size s' ∧ MovesUp s.seg.sgm s'.seg.sgm ∧
      (Forced s act → MovesOn page s.seg.sgm s'.seg.sgm) := by
  cases act with
  | thread i =>
    obtain ⟨seg, hseg, rfl⟩ := Option.map_eq_some_iff.mp hstep
    obtain ⟨hup, hmoves⟩ := h.thread hsmall hok hseg
    exact ⟨hup, hmoves.toMovesUp, fun _ => hmoves⟩
  | sync =>
    cases hs : s.sync with
    | idle =>
      rw [syncStep, hs] at hstep
      cases hstep
      exact ⟨⟨h.serial, h.data_le, h.index_le, trivial⟩, .refl s.seg.sgm,
        fun _ => .stays rfl rfl rfl⟩
    | dataOffset _ | msyncData _ _ _ _ | indexOffset _ | msyncIndex _ _ _ _ =>
      rw [syncStep, hs] at hstep
      cases hstep
  | access msync =>
    obtain ⟨hup, hmoves⟩ := h.access hsmall hstep
    exact ⟨hup, hmoves.toMovesUp, fun _ => hmoves⟩
  | writeByte p =>
    cases hstep
    exact h.writeByte p
  | writeEntry i =>
    cases hstep
    exact h.writeEntry i

theorem SyncedUp.init (n : Nat) {base flags : Nat} (h12 : headerSize ≤ size) :
    SyncedUp page size (syncInit (Segment.fresh base size flags) n) :=
  ⟨.init n h12, Nat.le_refl _, Nat.le_refl _, trivial⟩

end Step

/-- **A sync does not come back**: in every interleaving of threads that write and read with one
    that syncs, from any state `s` to any later one `s'` the synced offset moves up, and not past
    the write offset.  When nothing goes to disk in between that `msync` is not waiting for, the
    bytes and entries below the page of the synced offset stay on disk as they are, however often
    the segment is synced again. -/
theorem sync_moves_on {page : PageSize} {base size flags : Nat} {sgm : Segment}
    {files : SegmentFiles} (hopen : segmentOpen page .ok ⟨none, none⟩ base size flags =
      (0, some sgm, files)) (hsmall : size < 2 ^ 31)
    {n : Nat} {is is' : List SyncAct} {s s' : SyncState}
    (hrun : run (syncStep page) (syncInit sgm n) is = some s)
    (hunsealed : Along (syncStep page) Unsealed (syncInit sgm n) is)
    (hrun' : run (syncStep page) s is' = some s')
    (hunsealed' : Along (syncStep page) Unsealed s is') :
    s'.seg.sgm.sOffset.data ≤ s'.seg.sgm.wOffset.data ∧
      s'.seg.sgm.sOffset.index ≤ s'.seg.sgm.wOffset.index ∧
      s.seg.sgm.sOffset.data ≤ s'.seg.sgm.sOffset.data ∧
        s.seg.sgm.sOffset.index ≤ s'.seg.sgm.sOffset.index ∧
      (Along (syncStep page) Forced s is' →
        (∀ p, p < syncStart page s.seg.sgm → s'.seg.sgm.dataDisk p = s.seg.sgm.dataDisk p) ∧
        ∀ i, i < syncStartIndex page s.seg.sgm →
          s'.seg.sgm.indexDisk i = s.seg.sgm.indexDisk i) := by
  obtain ⟨h0, hmod, rfl, -⟩ := segmentOpen_new_size hopen
  have h4096 := page.le_of_mod h0 hmod
  have h12 : headerSize = 12 := rfl
  have hinv : SyncedUp page size s := by
    refine Lib.run_invariant (I := SyncedUp page size) ?_ is _ _ hunsealed (.init n (by omega)) hrun
    intro s act s' hok hinv hstep
    exact (hinv.step hsmall hok hstep).1
  have hmoves : SyncedUp page size s' ∧ MovesUp s.seg.sgm s'.seg.sgm := by
    refine Lib.run_invariant (I := fun t => SyncedUp page size t ∧ MovesUp s.seg.sgm t.seg.sgm) ?_
      is' _ _
      hunsealed' ⟨hinv, .refl s.seg.sgm⟩ hrun'
    rintro t act t' hok ⟨hup, hsofar⟩ hstep
    obtain ⟨hup', hmoves, -⟩ := hup.step hsmall hok hstep
    exact ⟨hup', hsofar.trans hmoves⟩
  refine ⟨hmoves.1.data_le, hmoves.1.index_le, hmoves.2.data_le, hmoves.2.index_le,
    fun hforced => ?_⟩
  have hdisk : SyncedUp page size s' ∧ MovesOn page s.seg.sgm s'.seg.sgm := by
    refine Lib.run_invariant (I := fun t => SyncedUp page size t ∧ MovesOn page s.seg.sgm t.seg.sgm)
      ?_ is' _ _
      hforced ⟨hinv, .stays rfl rfl rfl⟩ hrun'
    rintro t act t' hok ⟨hup, hsofar⟩ hstep
    obtain ⟨hup', -, hmoves⟩ := hup.step hsmall hok.unsealed hstep
    exact ⟨hup', hsofar.trans (hmoves hok)⟩
  exact ⟨hdisk.2.data, hdisk.2.index⟩

/-! ## One thread that writes and syncs -/

/-- A claim is not taken back. -/
theorem sealed_of_segStep {s s' : SegState} {i : Nat × SegAct} (hstep : segStep s i = some s')
    (hunsealed : s'.sealed = false) : s.sealed = false := by
  obtain ⟨k, act⟩ := i
  rcases segStep_effect hstep with ⟨pc, hmoves⟩ | ⟨c, -, rfl⟩ | ⟨buf, -, -, rfl⟩ |
    ⟨buf, -, -, rfl⟩ |
    ⟨c, st, rest, -, rfl⟩
  · rwa [SegState.sealed, hmoves.claims_eq] at hunsealed
  · exact hunsealed
  · exact hunsealed
  · rw [SegState.sealed, show (s.claimed k _).claims = s.claims ++ [_] from rfl, List.any_append,
      Bool.or_eq_false_iff] at hunsealed
    exact hunsealed.1
  · exact hunsealed

/-- The threads that write and read run on their own, and the segment is not sealed behind their
    steps. -/
theorem run_threads (page : PageSize) :
    ∀ {is : List (Nat × SegAct)} {s : SyncState} {seg : SegState}, run segStep s.seg is = some seg →
      seg.sealed = false →
    run (syncStep page) s (is.map .thread) = some { s with seg := seg } ∧
      Along (syncStep page) Forced s (is.map .thread) ∧ s.seg.sealed = false
  | [], s, seg, hrun, hunsealed => by
    obtain rfl := Option.some.inj hrun
    exact ⟨rfl, trivial, hunsealed⟩
  | i :: is, s, seg, hrun, hunsealed => by
    obtain ⟨seg', hstep, hrest⟩ := Lib.run_cons_eq_some.mp hrun
    obtain ⟨hrun', halong, hunsealed'⟩ :=
      run_threads page (s := { s with seg := seg' }) hrest hunsealed
    have hstep' : syncStep page s (.thread i) = some { s with seg := seg' } := by
      rw [syncStep, hstep, Option.map_some]
    have hopen := sealed_of_segStep hstep hunsealed'
    refine ⟨Lib.run_cons_eq_some.mpr ⟨_, hstep', hrun'⟩, Lib.along_cons ?_ hstep' halong, hopen⟩
    show readsSealed s.seg i = false
    rw [readsSealed]
    split
    · exact hopen
    · rfl

theorem Uninterrupted.forced {s : SyncState} {act : SyncAct} (h : Uninterrupted s act) :
    Forced s act := by
  cases act with
  | thread i => exact h.elim
  | writeByte p | writeEntry i => exact h
  | sync | access _ => trivial

/-- One thread has written `n` messages of one byte, and there is no other one. -/
structure Filled (size n : Nat) (s : SyncState) : Prop where
  threads : s.seg.threads = [.idle]
  sync : s.sync = .idle
  unsealed : s.seg.sealed = false
  size_eq : s.seg.sgm.size = size
  holds : Holds s.seg.sgm (List.replicate n (oneByte 0x61)) []
  inStep : InStep s.seg.sgm

namespace Filled

variable {size n : Nat} {s : SyncState}

theorem length_image (n : Nat) : (image frame (List.replicate n (oneByte 0x61))).length =
    13 * n := by
  rw [Mqlog.length_image, List.map_replicate, List.sum_replicate_nat, Nat.mul_comm]
  rfl

theorem looksSealed (n : Nat) : Mqlog.looksSealed (List.replicate n (oneByte 0x61)) = false := by
  cases n with
  | zero => rfl
  | succ n =>
    rw [List.replicate_succ', looksSealed_snoc]
    decide

/-- The write offset behind `n` messages of one byte. -/
theorem wOffset_eq (h : Filled size n s) : s.seg.sgm.wOffset = ⟨n, 13 * n⟩ := by
  have hcount := h.holds.count
  have hdata := h.holds.written_eq
  rw [List.length_replicate] at hcount
  rw [length_image] at hdata
  rw [← hdata]
  exact congrArg (OffsetPair.mk · s.seg.sgm.wOffset.data) hcount

theorem init (h12 : headerSize ≤ size) (hsmall : size < 2 ^ 32) (base flags : Nat) :
    Filled size 0 (syncInit (Segment.fresh base size flags) 1) where
  threads := rfl
  sync := rfl
  unsealed := rfl
  size_eq := rfl
  holds := holds_fresh base flags h12 hsmall
  inStep := inStep_fresh base size flags

/-- One more message. -/
theorem write (page : PageSize) (h : Filled size n s) (hfits : 13 * n + 25 ≤ size) :
    ∃ is s', run (syncStep page) s is = some s' ∧ Along (syncStep page) Forced s is ∧
      Filled size (n + 1) s' ∧
      s'.seg.sgm.sOffset = s.seg.sgm.sOffset := by
  have hroom : (image frame (List.replicate n (oneByte 0x61))).length + 2 * headerSize +
    (oneByte 0x61).1.length ≤
      s.seg.sgm.size := by
    rw [length_image, h.size_eq]
    exact hfits
  have hwrite := h.holds.segmentWrite_fits (looksSealed n) (oneByte 0x61) hroom
  obtain ⟨m, seg, hrun, hsgm, hthreads, hclaims⟩ :=
    solo_write (s := s.seg) (k := 0) (by rw [h.threads]; rfl) (oneByte 0x61)
  rw [hwrite] at hsgm
  have hunsealed : seg.sealed = false := by
    have hmark : markedEos s.seg.sgm = false := by rw [h.holds.markedEos_eq, looksSealed]
    have hclaim : (claimOf s.seg.sgm 0 (oneByte 0x61) s.seg.sgm.wOffset).frame =
        some (oneByte 0x61) := by
      have hroom' := h.wOffset_eq
      rw [claimOf, if_neg]
      rw [h.size_eq, hroom', show (OffsetPair.mk n (13 * n)).data = 13 * n from rfl]
      have h12 : headerSize = 12 := rfl
      have hone : (oneByte 0x61).1.length = 1 := rfl
      have hsmall := h.holds.small
      rw [h.size_eq] at hsmall
      omega
    rw [SegState.sealed, hclaims, hmark, if_neg Bool.false_ne_true, List.any_append,
      Bool.or_eq_false_iff]
    refine ⟨h.unsealed, ?_⟩
    rw [List.any_cons, List.any_nil, hclaim]
    rfl
  obtain ⟨hrun', halong, -⟩ := run_threads page (s := s) hrun hunsealed
  have hsgm' : seg.sgm.sOffset = s.seg.sgm.sOffset := by
    rw [hsgm]
    rfl
  refine ⟨_, _, hrun', halong, ⟨hthreads.trans h.threads, h.sync, hunsealed, ?_, ?_, ?_⟩, hsgm'⟩
  · show seg.sgm.size = size
    rw [hsgm]
    exact h.size_eq
  · show Holds seg.sgm _ []
    rw [hsgm, List.replicate_succ']
    exact h.holds.holding_snoc hroom
  · show InStep seg.sgm
    rw [hsgm]
    exact h.inStep.holding h.holds [oneByte 0x61] [] (by
      rw [← List.replicate_succ', length_image, length_image, List.length_nil]
      omega)

/-- A sync. -/
theorem syncs (page : PageSize) (h : Filled size n s) (hsmall : size < 2 ^ 31) :
    ∃ is s', run (syncStep page) s is = some s' ∧ Along (syncStep page) Forced s is ∧
      Filled size n s' ∧
      s'.seg.sgm.sOffset = ⟨n, 13 * n⟩ := by
  have hw := h.wOffset_eq
  have hle := h.holds.written_le_size
  rw [h.size_eq, hw, show (OffsetPair.mk n (13 * n)).data = 13 * n from rfl] at hle
  have hdata : s.seg.sgm.wOffset.data < 2 ^ 31 := by
    rw [hw]
    exact Nat.lt_of_le_of_lt hle hsmall
  have hindex : s.seg.sgm.wOffset.index < 2 ^ 31 := by
    rw [hw]
    show n < 2 ^ 31
    omega
  obtain ⟨is, halong, hrun⟩ := solo_sync page h.sync h.inStep.data_le (by omega) h.inStep.index_le
    (by omega) (true, true)
  obtain ⟨hinStep, hsynced⟩ := h.inStep.segmentSync page hdata hindex
  obtain ⟨-, hsize, -, -, -, -⟩ := segmentSync_frame page s.seg.sgm (true, true)
  refine ⟨_, _, hrun, ?_, ⟨h.threads, h.sync, h.unsealed, hsize.trans h.size_eq,
    h.holds.segmentSync page (true, true), hinStep⟩, hsynced.trans hw⟩
  exact Along.imp (I := fun _ => True) (fun _ _ _ huninterrupted => huninterrupted.forced)
    (fun _ _ _ _ _ _ => trivial) _ _ trivial halong

/-- Message after message. -/
theorem writes (page : PageSize) (h : Filled size n s) : ∀ (m : Nat), 13 * (n + m) + 12 ≤ size →
    ∃ is s', run (syncStep page) s is = some s' ∧ Along (syncStep page) Forced s is ∧
      Filled size (n + m) s'
  | 0, _ => ⟨[], s, rfl, trivial, h⟩
  | m + 1, hfits => by
    obtain ⟨is, s', hrun, halong, h'⟩ := writes page h m (by omega)
    obtain ⟨js, t, hrun', halong', ht, -⟩ := h'.write page (by omega)
    refine ⟨is ++ js, t, ?_, Lib.along_append halong hrun halong', ht⟩
    rw [Lib.run_append, hrun, Option.bind_some, hrun']

end Filled

/-- One thread fills more than a page of the data and a page of the index and syncs them, and then a
    message more.  The first page is on disk as it was. -/
theorem sync_moves_on_of_two_pages :
    ∃ is is' s s', run (syncStep page4096) (syncInit (Segment.fresh 0 65536 0) 1) is = some s ∧
      run (syncStep page4096) s is' = some s' ∧
      s.seg.sgm.sOffset = ⟨512, 6656⟩ ∧ s'.seg.sgm.sOffset = ⟨513, 6669⟩ ∧
      (∀ p, p < 4096 → s'.seg.sgm.dataDisk p = s.seg.sgm.dataDisk p) ∧
      ∀ i, i < 512 → s'.seg.sgm.indexDisk i = s.seg.sgm.indexDisk i := by
  have hinit : Filled 65536 0 (syncInit (Segment.fresh 0 65536 0) 1) :=
    .init (by decide) (by decide) 0 0
  obtain ⟨is₁, s₁, hrun₁, halong₁, h₁⟩ := hinit.writes page4096 512 (by decide)
  obtain ⟨is₂, s₂, hrun₂, halong₂, h₂, hsynced₂⟩ := h₁.syncs page4096 (by decide)
  obtain ⟨is₃, s₃, hrun₃, halong₃, h₃, -⟩ := h₂.write page4096 (by decide)
  obtain ⟨is₄, s₄, hrun₄, halong₄, -, hsynced₄⟩ := h₃.syncs page4096 (by decide)
  have hrun : run (syncStep page4096) (syncInit (Segment.fresh 0 65536 0) 1) (is₁ ++ is₂) =
      some s₂ := by
    rw [Lib.run_append, hrun₁, Option.bind_some, hrun₂]
  have hrun' : run (syncStep page4096) s₂ (is₃ ++ is₄) = some s₄ := by
    rw [Lib.run_append, hrun₃, Option.bind_some, hrun₄]
  have hunsealed : ∀ {s : SyncState} {is : List SyncAct}, Along (syncStep page4096) Forced s is →
      Along (syncStep page4096) Unsealed s is := fun h =>
    Along.imp (I := fun _ => True) (fun _ _ _ hforced => hforced.unsealed) (fun _ _ _ _ _ _ =>
      trivial) _ _
      trivial h
  have hforced' := Lib.along_append halong₃ hrun₃ halong₄
  obtain ⟨-, -, -, -, hdisk⟩ :=
    sync_moves_on (segmentOpen_new 0 0 (by decide) (by decide)) (by decide) hrun
    (hunsealed (Lib.along_append halong₁ hrun₁ halong₂)) hrun' (hunsealed hforced')
  obtain ⟨hdata, hindex⟩ := hdisk hforced'
  have hstart : syncStart page4096 s₂.seg.sgm = 4096 := by
    rw [syncStart, hsynced₂]
    decide
  have hstartIndex : syncStartIndex page4096 s₂.seg.sgm = 512 := by
    rw [syncStartIndex, hsynced₂]
    decide
  rw [hstart] at hdata
  rw [hstartIndex] at hindex
  exact ⟨_, _, s₂, s₄, hrun, hrun', hsynced₂, hsynced₄, hdata, hindex⟩

end Mqlog
