/-
  Sealing a segment while other threads write to it.

  `mark_eos` seals a segment with a compare-and-swap that moves the write offset behind the
  end-of-segment frame, and stores the frame only afterwards.  A thread that has not been stopped by
  `marked_eos`, because it looked too early, and that reads the write offset for its own claim after
  that compare-and-swap claims behind the end of the segment.

  Where no thread reads the write offset for a claim after the seal, every claim that is still to be
  made starts below the write offset and fails: the seal is the last claim, and all claims lie
  within the segment (`SealInv`).

  The condition (`readsSealed`) is one on a step and the state before it: the step is the read of
  the write offset in `segment_write`, and the segment is sealed.  It says nothing about how the
  claim ends.  The run behind it that the property rules out has three parts:

    1. thread 1 is past `marked_eos`;
    2. thread 0 finds no room for its payload and claims the end-of-segment frame;
    3. thread 1 reads the write offset, which is behind that frame, and claims there: for its
       payload when there is room, and for another end-of-segment frame when there is not.

  `claim_behind_seal` is such a run.  With several threads in the place of thread 1 the claims may
  get past the end of the mapping; the room is computed in `size_t`, so that from there on every
  payload seems to fit.

  `SealInv` has the two things that the step lemma needs: in an unsealed segment there is room for
  an end-of-segment frame behind the claims; in a sealed one no thread is about to claim at the
  write offset, so that the compare-and-swaps which are still to come fail.
-/
import Mqlog.SegmentOpen
import Mqlog.SegmentThreads

namespace Mqlog

open Lib (run Along)

namespace SegState

/-- The claim of `mark_eos` has succeeded. -/
def sealed (s : SegState) : Bool := s.claims.any fun c => c.frame.isNone

/-- No claim has succeeded behind that of `mark_eos`, and all claims lie within the segment. -/
def StaysSealed (size : Nat) (s : SegState) : Prop :=
  (∀ c ∈ s.claims.dropLast, c.frame ≠ none) ∧ ∀ c ∈ s.claims, c.stop ≤ size

end SegState

/-- The step reads the write offset for a claim, in a sealed segment. -/
def readsSealed (s : SegState) (i : Nat × SegAct) : Bool :=
  match i.2, s.threads[i.1]? with
  | .access, some (.writeOffset _) => s.sealed
  | _, _ => false

/-- What holds where no thread reads the write offset of a sealed segment for a claim. -/
structure SealInv (size : Nat) (s : SegState) : Prop where
  size_eq : s.sgm.size = size
  /-- The seal is the last claim. -/
  last : ∀ c ∈ s.claims.dropLast, c.frame ≠ none
  stop_le : ∀ c ∈ s.claims, c.stop ≤ s.sgm.wOffset.data
  written_le : s.sgm.wOffset.data ≤ size
  /-- There is room for the end-of-segment frame. -/
  room : s.sealed = false → s.sgm.wOffset.data + headerSize ≤ size
  /-- What a claim starts from is not above the write offset, and below it once it is sealed. -/
  claiming : ∀ (k : Nat) (buf : Buf) (curr : OffsetPair), s.threads[k]? =
    some (.claiming buf curr) →
    curr.data ≤ s.sgm.wOffset.data ∧ (s.sealed = true → curr.data < s.sgm.wOffset.data)

namespace SealInv

variable {size : Nat} {s s' : SegState} {k : Nat}

theorem staysSealed (h : SealInv size s) : s.StaysSealed size :=
  ⟨h.last, fun c hc => Nat.le_trans (h.stop_le c hc) h.written_le⟩

/-- A thread moves on, and is not about to claim. -/
theorem move (h : SealInv size s) {pc : SegPc} (hpc : ∀ buf curr, pc ≠ .claiming buf curr)
    (hthreads : s'.threads = s.threads.set k pc) (hclaims : s'.claims = s.claims)
    (hsize : s'.sgm.size = s.sgm.size) (hoffset : s'.sgm.wOffset = s.sgm.wOffset) :
    SealInv size s' := by
  have hsealed : s'.sealed = s.sealed := by rw [SegState.sealed, hclaims, SegState.sealed]
  refine ⟨hsize.trans h.size_eq, by rw [hclaims]; exact h.last, ?_, ?_, ?_, ?_⟩
  · rw [hclaims, hoffset]
    exact h.stop_le
  · rw [hoffset]
    exact h.written_le
  · rw [hsealed, hoffset]
    exact h.room
  · intro j buf curr hj
    rw [hthreads, List.getElem?_set] at hj
    split at hj
    · split at hj
      · exact absurd (Option.some.inj hj) (hpc buf curr)
      · cases hj
    · rw [hsealed, hoffset]
      exact h.claiming j buf curr hj

/-- A thread reads the write offset for its claim. -/
theorem writeOffset (h : SealInv size s) (hsealed : s.sealed = false) (buf : Buf) :
    SealInv size (s.goto k (.claiming buf s.sgm.wOffset)) where
  size_eq := h.size_eq
  last := h.last
  stop_le := h.stop_le
  written_le := h.written_le
  room := h.room
  claiming := by
    intro j buf' curr hj
    rw [SegState.goto, List.getElem?_set] at hj
    split at hj
    · split at hj
      · obtain ⟨-, rfl⟩ := SegPc.claiming.inj (Option.some.inj hj)
        refine ⟨Nat.le_refl _, fun hs => ?_⟩
        rw [show (s.goto k _).sealed = s.sealed from rfl, hsealed] at hs
        exact absurd hs Bool.false_ne_true
      · cases hj
    · exact h.claiming j buf' curr hj

/-- The claims before the seal are all for frames. -/
theorem frame_of_not_sealed (hsealed : s.sealed = false) : ∀ c ∈ s.claims, c.frame ≠ none := by
  intro c hc hnone
  rw [SegState.sealed, List.any_eq_false] at hsealed
  exact hsealed c hc (by rw [hnone]; rfl)

/-- **A claim that succeeds** is made in a segment that is not sealed, and stays within it. -/
theorem claimed (h : SealInv size s) (hsmall : size < 2 ^ 32) {buf : Buf}
    (hk : s.threads[k]? = some (.claiming buf s.sgm.wOffset)) :
    SealInv size (s.claimed k (claimOf s.sgm k buf s.sgm.wOffset)) := by
  generalize hc : claimOf s.sgm k buf s.sgm.wOffset = c
  have h12 : headerSize = 12 := rfl
  have hsealed : s.sealed = false := by
    rw [← Bool.not_eq_true]
    exact fun hs => Nat.lt_irrefl _ ((h.claiming k buf _ hk).2 hs)
  have hroom := h.room hsealed
  have hsize := h.size_eq
  have hbuf := buf.2
  have hbase : c.base = s.sgm.wOffset := by rw [← hc, claimOf_base]
  -- the claim moves the write offset to its end, which leaves room for the seal if it is a frame
  have hnew : c.new.data = c.stop ∧ c.stop ≤ size ∧ s.sgm.wOffset.data < c.stop ∧
      (c.frame ≠ none → c.stop + headerSize ≤ size) := by
    rw [claimOf] at hc
    split at hc
    · subst hc
      refine ⟨?_, ?_, ?_, fun hne => absurd rfl hne⟩
      · show (s.sgm.wOffset.data + headerSize) % 2 ^ 32 = s.sgm.wOffset.data + headerSize
        omega
      · exact hroom
      · show s.sgm.wOffset.data < s.sgm.wOffset.data + headerSize
        omega
    · subst hc
      have hstop : (⟨k, s.sgm.wOffset, some buf⟩ : Claim).stop =
          s.sgm.wOffset.data + (headerSize + buf.1.length) := rfl
      rw [hstop]
      refine ⟨?_, by omega, by omega, fun _ => by omega⟩
      show (s.sgm.wOffset.data + (headerSize + buf.1.length) % 2 ^ 64) % 2 ^ 32 = _
      omega
  obtain ⟨hnew, hstop, hlt, hfits⟩ := hnew
  have hframes := frame_of_not_sealed hsealed
  refine ⟨hsize, ?_, fun c' hc' => ?_, ?_, fun hs => ?_, fun j buf' curr hj => ?_⟩
  · show ∀ c' ∈ (s.claims ++ [c]).dropLast, _
    rw [List.dropLast_concat]
    exact hframes
  · show c'.stop ≤ c.new.data
    rw [hnew]
    rcases List.mem_append.mp hc' with hc' | hc'
    · exact Nat.le_trans (h.stop_le c' hc') (Nat.le_of_lt hlt)
    · rw [List.mem_singleton.mp hc']
  · show c.new.data ≤ size
    omega
  · show c.new.data + headerSize ≤ size
    rw [hnew]
    refine hfits fun hnone => ?_
    rw [SegState.sealed, List.any_eq_false] at hs
    exact hs c (List.mem_append_right _ (List.mem_singleton_self c)) (by rw [hnone]; rfl)
  · show curr.data ≤ c.new.data ∧ (_ → curr.data < c.new.data)
    rw [hnew]
    have hle : curr.data ≤ s.sgm.wOffset.data := by
      have hj' : (s.threads.set k (.storing c c.stores))[j]? = some (.claiming buf' curr) := hj
      rw [List.getElem?_set] at hj'
      split at hj'
      · split at hj'
        · cases hj'
        · cases hj'
      · exact (h.claiming j buf' curr hj').1
    exact ⟨by omega, fun _ => by omega⟩

theorem init (n : Nat) {base flags : Nat} (h12 : headerSize ≤ size) :
    SealInv size (segInit (Segment.fresh base size flags) n) where
  size_eq := rfl
  last c hc := absurd hc List.not_mem_nil
  stop_le c hc := absurd hc List.not_mem_nil
  written_le := Nat.zero_le _
  room _ := by
    show 0 + headerSize ≤ size
    omega
  claiming k buf curr hk := by
    cases List.eq_of_mem_replicate (List.mem_of_getElem? hk)

/-- The step lemma. -/
theorem step (h : SealInv size s) (hsmall : size < 2 ^ 32) {i : Nat × SegAct}
    (hreads : readsSealed s i = false) (hstep : segStep s i = some s') : SealInv size s' := by
  obtain ⟨k, act⟩ := i
  rcases segStep_effect hstep with ⟨pc, hmoves⟩ | ⟨c, -, rfl⟩ | ⟨buf, rfl, hk, rfl⟩ |
    ⟨buf, -, hk, rfl⟩ |
    ⟨c, st, rest, -, rfl⟩
  · exact h.move hmoves.not_claiming hmoves.threads_eq hmoves.claims_eq (by rw [hmoves.sgm_eq])
      (by rw [hmoves.sgm_eq])
  · exact h.move (fun _ _ => SegPc.noConfusion) rfl rfl rfl rfl
  · simp only [readsSealed, hk] at hreads
    exact h.writeOffset hreads buf
  · exact h.claimed hsmall hk
  · cases st with
    | data pos bytes => exact h.move (fun _ _ => SegPc.noConfusion) rfl rfl rfl rfl
    | index i physicalOffset => exact h.move (fun _ _ => SegPc.noConfusion) rfl rfl rfl rfl

end SealInv

/-- **A sealed segment stays sealed** in every interleaving of any number of threads in which no
    thread reads the write offset for a claim after the seal. -/
theorem stays_sealed {page : PageSize} {base size flags : Nat} {sgm : Segment}
    {files : SegmentFiles} (hopen : segmentOpen page .ok ⟨none, none⟩ base size flags =
      (0, some sgm, files))
    (hsmall : size < 2 ^ 32) {n : Nat} {is : List (Nat × SegAct)} {s : SegState}
    (hrun : run segStep (segInit sgm n) is = some s)
    (hreads : Along segStep (fun s i => readsSealed s i = false) (segInit sgm n) is) :
    s.StaysSealed size := by
  obtain ⟨h0, hmod, rfl, -⟩ := segmentOpen_new_size hopen
  have h4096 := page.le_of_mod h0 hmod
  have h12 : headerSize = 12 := rfl
  refine SealInv.staysSealed (Lib.run_invariant (I := SealInv size) ?_ is _ _ hreads
    (.init n (by omega)) hrun)
  intro s i s' hok hinv hstep
  exact hinv.step hsmall hok hstep

/-- One thread seals the segment, and the next one finds it sealed. -/
def sealAlone : List (Nat × SegAct) :=
  [(0, .write (bytes 4085 0x61 (by decide))), (0, .access), (0, .access), (0, .access),
    (0, .access), (0, .access), (0, .access), (0, .access), (0, .access), (0, .access),
    (1, .write (bytes 1 0x62 (by decide))), (1, .access), (1, .access)]

theorem stays_sealed_of_two :
    ∃ s, run segStep (segInit (Segment.fresh 0 4096 sgmRddrt) 2) sealAlone = some s ∧
      s.StaysSealed 4096 ∧ s.sealed = true := by
  have hopen : segmentOpen page4096 .ok ⟨none, none⟩ 0 4096 sgmRddrt =
      (0, some (Segment.fresh 0 4096 sgmRddrt), _) := segmentOpen_new 0 _ (by decide) (by decide)
  have hruns : (run segStep (segInit (Segment.fresh 0 4096 sgmRddrt) 2) sealAlone).map
    SegState.sealed =
      some true := by decide +kernel
  obtain ⟨s, hrun, hsealed⟩ := Option.map_eq_some_iff.mp hruns
  exact ⟨s, hrun, stays_sealed hopen (by decide) hrun (by decide +kernel), hsealed⟩

/-- Thread 1 has looked for the end-of-segment frame before thread 0 claims it, and reads the write
    offset for its own claim afterwards: it claims behind the end of the segment. -/
theorem claim_behind_seal :
    ∃ s, run segStep (segInit (Segment.fresh 0 4096 sgmRddrt) 2)
        [(0, .write (bytes 4085 0x61 (by decide))), (1, .write (bytes 1 0x62 (by decide))),
          (1, .access), (0, .access), (0, .access), (0, .access), (1, .access), (1, .access)] =
        some s ∧ ¬ s.StaysSealed 4096 := by
  have hruns : (run segStep (segInit (Segment.fresh 0 4096 sgmRddrt) 2)
      [(0, .write (bytes 4085 0x61 (by decide))), (1, .write (bytes 1 0x62 (by decide))),
        (1, .access), (0, .access), (0, .access), (0, .access), (1, .access), (1, .access)]).map
      (fun s => s.claims.dropLast.map fun c => c.frame) = some [none] := by decide +kernel
  obtain ⟨s, hrun, hclaims⟩ := Option.map_eq_some_iff.mp hruns
  refine ⟨s, hrun, fun hstays => ?_⟩
  have hmem : none ∈ s.claims.dropLast.map fun c => c.frame := by
    rw [hclaims]
    exact List.mem_singleton_self none
  obtain ⟨c, hc, hnone⟩ := List.mem_map.mp hmem
  exact hstays.1 c hc hnone

end Mqlog
