/-
  One thread that writes to a segment and any number that read it.

  This is how a log uses a segment, since `mqlog_write` holds the mutex while it is in
  `segment_write`.  The writer then loses no compare-and-swap, and it reads the write offset of no
  sealed segment (`WriterOk.step`): the conditions under which the claims of a segment are in order
  hold by themselves.

  A reader of a message that was stored before it called `segment_read` is not refused, whatever the
  writer does meanwhile (`Sees.step`).  Where the first message is stored, a reader is told that its
  message is there or that it is not there yet, and nothing else (`reading_step`).

    1. Roles: `SegPc.isWriting` and `SegPc.reads` sort the points of a thread, and `SegState.Sole`
       says that no thread but one is in `segment_write`.
    2. The writer.  `WriterOk` is what it knows at each of its accesses: what it read is what is
       there, as nobody else writes.  A step goes on, claims, stores or returns (`WriterStep`), and
       `WriterStep.outcome` says what this is to the caller: what is in flight afterwards
       (`SegPc.inFlight`), and with which code it returns.
    3. The first payload of a segment is a case of its own (`FirstOk`): the segment is empty, and a
       payload that fits is taken for sure.  So a new segment of a log takes the message for which
       it was created, and is never closed again for want of room.
    4. Readers.  `Sees` says of each access of a reader that it has seen enough of a stored frame to
       find it; `ReadStep` lists how an access may end.

  The two kinds of threads meet in `Later`: all that a reader needs of the writer is that claims and
  stores are not taken back, and all that the writer needs of a reader is that it leaves the claims
  as they are (`left_of_reads`).
-/
import Mqlog.SegmentSerial

namespace Mqlog

open Lib.Mem Lib.Records

/-! ## Roles -/

/-- The thread is in `segment_write`. -/
def SegPc.isWriting : SegPc → Bool
  | .markedOffset _ => true
  | .markedFlags _ _ => true
  | .writeOffset _ => true
  | .claiming _ _ => true
  | .storing _ _ => true
  | _ => false

/-- The offset that a thread in `segment_read` was given. -/
def SegPc.reads : SegPc → Option Nat
  | .boundary relativeOffset => some relativeOffset
  | .entries relativeOffset _ => some relativeOffset
  | .entry relativeOffset _ => some relativeOffset
  | .flags relativeOffset _ => some relativeOffset
  | .size relativeOffset _ => some relativeOffset
  | _ => none

/-- No thread but `k` is in `segment_write`. -/
def SegState.Sole (s : SegState) (k : Nat) : Prop :=
  ∀ (i : Nat) (pc : SegPc), s.threads[i]? = some pc → pc.isWriting = true → i = k

section Roles

variable {s s' : SegState} {k : Nat} {pc : SegPc} {relativeOffset : Nat}

theorem SegPc.not_writing_of_reads (h : pc.reads = some relativeOffset) : pc.isWriting = false := by
  cases pc with
  | markedOffset _ | markedFlags _ _ | writeOffset _ | claiming _ _ | storing _ _ => cases h
  | idle | boundary _ | entries _ _ | entry _ _ | flags _ _ | size _ _ => rfl

theorem Later.of_eq (hsgm : s'.sgm = s.sgm) (hclaims : s'.claims = s.claims)
    (hleft : ∀ c, s'.left c = s.left c) : Later s s' where
  flags_eq := by rw [hsgm]
  data_le := by rw [hsgm]
  index_le := by rw [hsgm]
  claims c hc := by
    rw [hclaims]
    exact hc
  left_le c _ := by rw [hleft]

/-- A thread in one of the functions can make its access. -/
theorem SegState.exists_access (s : SegState) (k : Nat) (hpc : pc ≠ .idle) :
    ∃ s', s.access k pc = some s' := by
  rw [← Option.isSome_iff_exists]
  cases pc with
  | idle => exact absurd rfl hpc
  | writeOffset _ | boundary _ | size _ _ => rfl
  | markedOffset _ | markedFlags _ _ | entries _ _ =>
    rw [SegState.access]
    split
    · rfl
    · rfl
  | claiming buf curr =>
    simp only [SegState.access]
    split
    · rfl
    · rfl
  | storing c rest =>
    cases rest with
    | nil => rfl
    | cons st rest => rfl
  | entry _ _ | flags _ _ =>
    rw [SegState.access]
    split
    · rfl
    · split
      · rfl
      · rfl

/-- Nobody is in the middle of a claim but the writer. -/
theorem SegState.Sole.left_eq (h : s.Sole k) (hk : s.threads[k]? = some pc)
    (hpc : ∀ c rest, pc = .storing c rest → rest = []) (c : Claim) : s.left c = [] := by
  rw [SegState.left]
  split
  · rename_i c' rest hthread
    have heq := h _ _ hthread rfl
    rw [heq, hk] at hthread
    rw [hpc c' rest (Option.some.inj hthread), ite_self]
  · rfl

/-- The segment in the middle of the claim of the writer: the others are stored. -/
theorem SegState.Sole.left_of_ne (h : s.Sole k) {c c' : Claim} {rest : List Store}
    (hk : s.threads[k]? = some (.storing c rest)) (hne : c' ≠ c) : s.left c' = [] := by
  rw [SegState.left]
  split
  · rename_i c'' rest' hthread
    have heq := h _ _ hthread rfl
    rw [heq, hk] at hthread
    obtain ⟨rfl, -⟩ := SegPc.storing.inj (Option.some.inj hthread)
    exact if_neg fun heq' => hne heq'.symm
  · rfl

theorem SegState.Sole.set (h : s.Sole k) {j : Nat} (hthreads : s'.threads = s.threads.set j pc)
    (hpc : pc.isWriting = true → j = k) : s'.Sole k := by
  intro i pc' hi hwriting
  rw [hthreads, List.getElem?_set] at hi
  split at hi
  · rename_i hij
    split at hi
    · rw [← hij]
      refine hpc ?_
      rw [Option.some.inj hi]
      exact hwriting
    · cases hi
  · exact h i pc' hi hwriting

end Roles

/-! ## The writer -/

/-- What the only writer of a segment knows at its accesses. -/
def WriterOk (s : SegState) (buf : Buf) : SegPc → Prop
  | .markedOffset buf' => buf' = buf
  | .markedFlags buf' hdr => buf' = buf ∧ s.sgm.wOffset.data = hdr + headerSize
  | .writeOffset buf' => buf' = buf ∧ s.sealed = false
  | .claiming buf' curr => buf' = buf ∧ s.sealed = false ∧ curr = s.sgm.wOffset
  | .storing c _ => s.claims.getLast? = some c ∧ (c.frame = none ∨ c.frame = some buf)
  | _ => False

/-- What the writer of a segment without messages knows. -/
def FirstOk (s : SegState) (buf : Buf) : SegPc → Prop
  | .markedOffset _ => s.claims = []
  | .writeOffset _ => s.claims = []
  | .claiming _ _ => s.claims = []
  | .storing c _ => s.claims = [c] ∧ c.frame = some buf
  | _ => False

/-- The code that `segment_write` returns when the next access of the thread is its last one. -/
def writeCode : SegPc → Int
  | .markedFlags _ _ => ELEOS
  | .claiming _ _ => ELLOCK
  | .storing c _ =>
    match c.frame with
    | some buf => toSsize buf.1.length
    | none => ELEOS
  | _ => 0

/-- What an access of the writer does: it goes on, or it claims, or it stores, or it returns. -/
inductive WriterStep (s : SegState) (k : Nat) (buf : Buf) (s' : SegState) : SegPc → Prop where
  | goes (pc pc' : SegPc) : WriterOk s' buf pc' → pc.isStoring = false → pc'.isStoring = false →
      s' = s.goto k pc' → WriterStep s k buf s' pc
  | claims (pc : SegPc) (c : Claim) : WriterOk s' buf (.storing c c.stores) → pc.isStoring = false →
      s' = s.claimed k c → c = claimOf s.sgm k buf s.sgm.wOffset → WriterStep s k buf s' pc
  | stores (c : Claim) (st : Store) (rest : List Store) : s' = s.stored k c st rest →
      WriterStep s k buf s' (.storing c (st :: rest))
  | marked (buf' : Buf) (hdr : Nat) : s' = s.goto k .idle →
      WriterStep s k buf s' (.markedFlags buf' hdr)
  | returns (c : Claim) : s' = s.goto k .idle → WriterStep s k buf s' (.storing c [])

/-- **A sealed segment looks sealed**, when nobody is storing. -/
theorem SerialInv.marked_of_sealed {size : Nat} {fresh : Segment} {s : SegState}
    (h : SerialInv size fresh s) (hsmall : size < 2 ^ 32) (hleft : ∀ c ∈ s.claims, s.left c = [])
    (hsealed : s.sealed = true) : headerSize ≤ s.sgm.wOffset.data ∧
      hdrFlags s.sgm.buffer (s.sgm.wOffset.data - headerSize) = headerFlagsEos := by
  have hholds := h.holds hsmall hleft
  have hdata : s.sgm.wOffset.data = (image Claim.bytes s.claims).length := by rw [h.offset]
  rw [h.image_eq, hsealed, if_pos rfl, List.length_append, length_eosFrame] at hdata
  rw [hsealed, if_pos rfl] at hholds
  rw [hdata, Nat.add_sub_cancel]
  exact ⟨Nat.le_add_left _ _, hholds.headerAt_eos.flags_eq (by decide)⟩

section Writer

variable {size : Nat} {fresh : Segment} {s s' : SegState} {k : Nat} {buf : Buf} {pc : SegPc}

/-- **The step of the writer.** -/
theorem WriterOk.step (h : WriterOk s buf pc) (hinv : SerialInv size fresh s)
    (hsmall : size < 2 ^ 32) (hsole : s.Sole k) (hk : s.threads[k]? = some pc)
    (hstep : segStep s (k, .access) = some s') :
    WriterStep s k buf s' pc ∧ readsSealed s (k, .access) = false := by
  have hlt := (List.getElem?_eq_some_iff.mp hk).1
  have haccess : s.access k pc = some s' := by
    simp only [segStep, hk] at hstep
    exact hstep
  cases pc with
  | markedOffset buf' =>
    obtain rfl : buf' = buf := h
    have hleft : ∀ c ∈ s.claims, s.left c = [] := fun c _ =>
      hsole.left_eq hk (fun _ _ => SegPc.noConfusion) c
    refine ⟨?_, by simp only [readsSealed, hk]⟩
    simp only [SegState.access] at haccess
    split at haccess
    · rename_i hzero
      cases haccess
      refine .goes _ (.writeOffset buf') ⟨rfl, ?_⟩ rfl rfl rfl
      rw [← Bool.not_eq_true]
      intro hsealed
      have hmarked := (hinv.marked_of_sealed hsmall hleft hsealed).1
      omega
    · rename_i hle
      cases haccess
      exact .goes _ (.markedFlags buf' _) ⟨rfl, by show s.sgm.wOffset.data = _; omega⟩ rfl rfl rfl
  | markedFlags buf' hdr =>
    obtain ⟨rfl, hdata⟩ := h
    have hleft : ∀ c ∈ s.claims, s.left c = [] := fun c _ =>
      hsole.left_eq hk (fun _ _ => SegPc.noConfusion) c
    refine ⟨?_, by simp only [readsSealed, hk]⟩
    simp only [SegState.access] at haccess
    split at haccess
    · cases haccess
      exact .marked buf' hdr rfl
    · rename_i hnot
      cases haccess
      refine .goes _ (.writeOffset buf') ⟨rfl, ?_⟩ rfl rfl rfl
      rw [← Bool.not_eq_true]
      intro hsealed
      have hmarked := (hinv.marked_of_sealed hsmall hleft hsealed).2
      rw [hdata, Nat.add_sub_cancel] at hmarked
      exact hnot hmarked
  | writeOffset buf' =>
    obtain ⟨rfl, hsealed⟩ := h
    cases haccess
    exact ⟨.goes _ (.claiming buf' s.sgm.wOffset) ⟨rfl, hsealed, rfl⟩ rfl rfl rfl, by
      simp only [readsSealed, hk, hsealed]⟩
  | claiming buf' curr =>
    obtain ⟨rfl, hsealed, rfl⟩ := h
    refine ⟨?_, by simp only [readsSealed, hk]⟩
    rcases access_claiming_cases haccess with ⟨hne, -⟩ | ⟨-, rfl⟩
    · exact absurd rfl hne
    · refine .claims _ _ ?_ rfl rfl rfl
      refine ⟨List.getLast?_concat, ?_⟩
      unfold claimOf
      dsimp only
      split
      · exact .inl rfl
      · exact .inr rfl
  | storing c rest =>
    refine ⟨?_, by simp only [readsSealed, hk]⟩
    cases rest with
    | nil =>
      cases haccess
      exact .returns c rfl
    | cons st rest =>
      cases haccess
      exact .stores c st rest rfl
  | idle | boundary _ | entries _ _ | entry _ _ | flags _ _ | size _ _ => exact h.elim

/-- What the writer knows is about the write offset and the claims. -/
theorem WriterOk.congr (h : WriterOk s buf pc) (hsgm : s'.sgm = s.sgm)
    (hclaims : s'.claims = s.claims) :
    WriterOk s' buf pc := by
  cases pc with
  | markedOffset buf' => exact h
  | storing c rest => exact ⟨by rw [hclaims]; exact h.1, h.2⟩
  | markedFlags buf' hdr => exact ⟨h.1, hsgm ▸ h.2⟩
  | writeOffset buf' => exact ⟨h.1, by rw [SegState.sealed, hclaims]; exact h.2⟩
  | claiming buf' curr => exact ⟨h.1, by rw [SegState.sealed, hclaims]; exact h.2.1, hsgm ▸ h.2.2⟩
  | idle | boundary _ | entries _ _ | entry _ _ | flags _ _ | size _ _ => exact h.elim

theorem FirstOk.congr (h : FirstOk s buf pc) (hclaims : s'.claims = s.claims) :
    FirstOk s' buf pc := by
  cases pc with
  | markedOffset _ | writeOffset _ | claiming _ _ => exact hclaims.trans h
  | storing c rest => exact ⟨hclaims.trans h.1, h.2⟩
  | idle | markedFlags _ _ | boundary _ | entries _ _ | entry _ _ | flags _ _ | size _ _ =>
    exact h.elim

/-- A writer is writing. -/
theorem WriterOk.isWriting (h : WriterOk s buf pc) : pc.isWriting = true := by
  cases pc with
  | markedOffset _ | markedFlags _ _ | writeOffset _ | claiming _ _ | storing _ _ => rfl
  | idle | boundary _ | entries _ _ | entry _ _ | flags _ _ | size _ _ => exact h.elim

/-- The claim for a payload that fits into a segment without messages. -/
theorem claimOf_first {sgm : Segment} (hsize : sgm.size = size) (hsmall : size < 2 ^ 32) (k : Nat)
    (hfits : buf.1.length + 2 * headerSize ≤ size) :
    claimOf sgm k buf ⟨0, 0⟩ = ⟨k, ⟨0, 0⟩, some buf⟩ := by
  have h12 : headerSize = 12 := rfl
  refine if_neg ?_
  rw [hsize]
  show ¬ (size + (2 ^ 64 - 0)) % 2 ^ 64 < (headerSize + (headerSize + buf.1.length) % 2 ^ 64) %
    2 ^ 64
  omega

/-- **The step of the writer of a segment without messages**, whose payload fits: it goes on until
    the payload is stored. -/
theorem FirstOk.step (h : FirstOk s buf pc) (hinv : SerialInv size fresh s) (hsmall : size < 2 ^ 32)
    (hfits : buf.1.length + 2 * headerSize ≤ size) (hstep : WriterStep s k buf s' pc) :
    (∃ pc', FirstOk s' buf pc' ∧ s'.threads = s.threads.set k pc') ∨
    (∃ c, pc = .storing c [] ∧ s.claims = [c] ∧ c.frame = some buf) := by
  have hsize : s.sgm.size = size := hinv.seals.size_eq
  have hzero : s.claims = [] → s.sgm.wOffset = ⟨0, 0⟩ := by
    intro hnil
    rw [hinv.offset, hnil]
    rfl
  have hnone : pc.isStoring = false → s.claims = [] := by
    intro hpc
    cases pc with
    | markedOffset buf' => exact h
    | writeOffset buf' => exact h
    | claiming buf' curr => exact h
    | markedFlags buf' hdr => exact h.elim
    | storing c rest => cases hpc
    | idle | boundary _ | entries _ _ | entry _ _ | flags _ _ | size _ _ => exact h.elim
  cases hstep with
  | goes _ pc' hok hpc hpc' heq =>
    subst heq
    refine .inl ⟨pc', ?_, rfl⟩
    have hnil := hnone hpc
    cases pc' with
    | markedOffset buf' => exact hnil
    | writeOffset buf' => exact hnil
    | claiming buf' curr => exact hnil
    | markedFlags buf' hdr =>
      have hdata : s.sgm.wOffset.data = hdr + headerSize := hok.2
      rw [hzero hnil] at hdata
      exact absurd hdata (by show ¬ 0 = hdr + 12; omega)
    | storing c rest => cases hpc'
    | idle | boundary _ | entries _ _ | entry _ _ | flags _ _ | size _ _ => exact hok.elim
  | claims _ c _ hpc heq hc =>
    subst heq
    have hnil := hnone hpc
    rw [hzero hnil, claimOf_first hsize hsmall k hfits] at hc
    subst hc
    have hclaims : (s.claimed k ⟨k, ⟨0, 0⟩, some buf⟩).claims = [⟨k, ⟨0, 0⟩, some buf⟩] := by
      show s.claims ++ [_] = _
      rw [hnil]
      rfl
    exact .inl ⟨.storing ⟨k, ⟨0, 0⟩, some buf⟩ _, ⟨hclaims, rfl⟩, rfl⟩
  | stores c st rest heq =>
    subst heq
    exact .inl ⟨.storing c rest, h, rfl⟩
  | marked buf' hdr _ => exact h.elim
  | returns c _ => exact .inr ⟨c, rfl, h⟩

/-- What the writer has claimed at its access and not acknowledged. -/
def SegPc.inFlight : SegPc → List Buf
  | .storing c _ => payloads [c]
  | _ => []

theorem SegPc.inFlight_eq_nil (h : pc.isStoring = false) : pc.inFlight = [] := by
  cases pc with
  | storing c rest => cases h
  | idle | markedOffset _ | markedFlags _ _ | writeOffset _ | claiming _ _ | boundary _
  | entries _ _
  | entry _ _ | flags _ _ | size _ _ => rfl

/-- **How a step of the writer ends**: it goes on, and has claimed what is in flight then; or it
    returns that there is no capacity, and nothing is in flight; or it returns that the payload is
    stored. -/
theorem WriterStep.outcome (h : WriterStep s k buf s' pc) (hok : WriterOk s buf pc) :
    (∃ pc' l, s'.threads = s.threads.set k pc' ∧ WriterOk s' buf pc' ∧
      payloads s'.claims = payloads s.claims ++ l ∧ pc'.inFlight = pc.inFlight ++ l) ∨
    (s' = s.goto k .idle ∧ writeCode pc = ELEOS ∧ pc.inFlight = [] ∧ ¬ FirstOk s buf pc) ∨
    ∃ c, s' = s.goto k .idle ∧ pc = .storing c [] ∧ c.frame = some buf := by
  cases h with
  | goes _ pc' hok' hpc hpc' heq =>
    subst heq
    refine .inl ⟨pc', [], rfl, hok', (List.append_nil _).symm, ?_⟩
    rw [SegPc.inFlight_eq_nil hpc, SegPc.inFlight_eq_nil hpc']
    rfl
  | claims _ c hok' hpc heq _ =>
    subst heq
    refine .inl ⟨.storing c c.stores, payloads [c], rfl, hok', payloads_append .., ?_⟩
    rw [SegPc.inFlight_eq_nil hpc]
    rfl
  | stores c st rest heq =>
    subst heq
    exact .inl ⟨.storing c rest, [], rfl, hok, (List.append_nil _).symm, (List.append_nil _).symm⟩
  | marked buf' hdr heq => exact .inr (.inl ⟨heq, rfl, rfl, fun hfirst => hfirst⟩)
  | returns c heq =>
    rcases hok.2 with hnone | hsome
    · refine .inr (.inl ⟨heq, ?_, List.filterMap_cons_none hnone, ?_⟩)
      · rw [writeCode, hnone]
      · intro hfirst
        have hsome := hfirst.2
        rw [hnone] at hsome
        cases hsome
    · exact .inr (.inr ⟨c, heq, rfl, hsome⟩)

/-- The first message is stored. -/
theorem SerialInv.started (h : SerialInv size fresh s) {c : Claim} (hclaims : s.claims = [c])
    (hframe : c.frame = some buf) (hleft : s.left c = []) : s.Shown 0 0 buf := by
  have hbase := h.base 0 (by rw [hclaims]; exact Nat.one_pos)
  simp only [hclaims, List.getElem_cons_zero] at hbase
  exact ⟨c, by rw [hclaims]; exact List.mem_singleton_self c, hframe,
    hbase, by rw [hleft]; exact Nat.zero_le 1⟩

end Writer

/-! ## Readers -/

/-- A reader that will find the frame of a claim. -/
def Sees (c : Claim) : SegPc → Prop
  | .boundary relativeOffset => relativeOffset = c.base.index
  | .entries relativeOffset boundary => relativeOffset = c.base.index ∧ c.base.data < boundary
  | .entry relativeOffset boundary => relativeOffset = c.base.index ∧ c.base.data < boundary
  | .flags relativeOffset physicalOffset => relativeOffset = c.base.index ∧
      physicalOffset = c.base.data
  | .size relativeOffset physicalOffset => relativeOffset = c.base.index ∧
      physicalOffset = c.base.data
  | _ => False

section Readers

variable {s s' : SegState} {k : Nat} {pc : SegPc} {relativeOffset : Nat}

/-- The flags of a frame that is shown. -/
theorem ClaimsInv.shown_ready (h : ClaimsInv s) {i hdr : Nat} {buf : Buf}
    (hshown : s.Shown i hdr buf) :
    hdrFlags s.sgm.buffer hdr = headerFlagsReady := by
  obtain ⟨-, hload⟩ := h.shown_bytes hshown
  rw [frame, load_add] at hload
  obtain ⟨hhdr, -⟩ := List.append_inj hload (by rw [length_load, length_headerBytes])
  exact HeaderAt.flags_eq hhdr (by decide)

/-- Only the first claim is at position 0. -/
theorem ClaimsInv.index_eq_zero (h : ClaimsInv s) {c : Claim} (hc : c ∈ s.claims)
    (hdata : c.base.data = 0) : c.base.index = 0 := by
  have hstop := (h.le c hc).1
  have hlt := c.base_lt_stop
  obtain ⟨c₀, hc₀, hbase⟩ := h.first (by omega)
  by_cases hne : c = c₀
  · rw [hne, hbase]
  · have hlt₀ := c₀.base_lt_stop
    rcases h.apart hc hc₀ hne with hbefore | hbefore
    · have hle := hbefore.1
      rw [hbase] at hle
      exact absurd hlt (Nat.not_lt.mpr (Nat.le_trans hle (Nat.zero_le _)))
    · have hle := hbefore.1
      omega

/-- How an access of a reader ends: the reader goes on, or it returns that the message is not there,
    or that it is. -/
inductive ReadStep (s : SegState) (k relativeOffset : Nat) (s' : SegState) : Prop where
  | goes (pc : SegPc) : pc.reads = some relativeOffset → s' = s.goto k pc →
      ReadStep s k relativeOffset s'
  | returns (rc : Int) (fr : Frame) : rc = ELNORD ∨ 0 ≤ rc → s' = s.answer k relativeOffset rc fr →
      ReadStep s k relativeOffset s'

/-- A reader leaves the claims and their stores as they are, and reads no write offset for a
    claim. -/
theorem left_of_reads (hpc : pc.reads = some relativeOffset) (hk : s.threads[k]? = some pc)
    {pc' : SegPc} (hthreads : s'.threads = s.threads.set k pc') (hpc' : pc'.isStoring = false)
    (c : Claim) :
    s'.left c = s.left c := by
  refine left_of_moves (fun c' rest hstoring => ?_) hthreads (SegPc.ne_storing hpc') c
  rw [hk] at hstoring
  rw [Option.some.inj hstoring] at hpc
  cases hpc

theorem readsSealed_of_reads (hpc : pc.reads = some relativeOffset) (hk : s.threads[k]? = some pc) :
    readsSealed s (k, .access) = false := by
  cases pc with
  | idle | markedOffset _ | markedFlags _ _ | writeOffset _ | claiming _ _ | storing _ _ =>
    cases hpc
  | boundary _ | entries _ _ | entry _ _ | flags _ _ | size _ _ => simp only [readsSealed, hk]

/-- **The step of a reader** of a segment whose first message is stored. -/
theorem reading_step (h : PublishInv s) (hfirst : ∃ buf, s.Shown 0 0 buf)
    (hpc : pc.reads = some relativeOffset) (hk : s.threads[k]? = some pc)
    (hstep : segStep s (k, .access) = some s') : ReadStep s k relativeOffset s' := by
  have haccess : s.access k pc = some s' := by
    simp only [segStep, hk] at hstep
    exact hstep
  have hok := h.readers k pc hk
  cases pc with
  | idle | markedOffset _ | markedFlags _ _ | writeOffset _ | claiming _ _ | storing _ _ =>
    cases hpc
  | boundary r =>
    cases hpc
    cases haccess
    exact .goes (.entries relativeOffset _) rfl rfl
  | entries r boundary =>
    cases hpc
    simp only [SegState.access] at haccess
    split at haccess
    · cases haccess
      exact .returns _ _ (.inl rfl) rfl
    · cases haccess
      exact .goes (.entry relativeOffset boundary) rfl rfl
  | entry r boundary =>
    cases hpc
    simp only [SegState.access] at haccess
    split at haccess
    · cases haccess
      exact .returns _ _ (.inl rfl) rfl
    split at haccess
    · cases haccess
      exact .returns _ _ (.inl rfl) rfl
    · cases haccess
      exact .goes (.flags relativeOffset _) rfl rfl
  | flags r physicalOffset =>
    cases hpc
    -- the header is that of a frame which is shown: the first one, or that of the entry
    have hready : hdrFlags s.sgm.buffer physicalOffset = headerFlagsReady := by
      rcases hok with ⟨buf, hshown⟩ | ⟨-, rfl, -⟩
      · exact h.claims.shown_ready hshown
      · obtain ⟨buf, hshown⟩ := hfirst
        exact h.claims.shown_ready hshown
    simp only [SegState.access, if_pos hready] at haccess
    cases haccess
    exact .goes (.size relativeOffset physicalOffset) rfl rfl
  | size r physicalOffset =>
    cases hpc
    cases haccess
    obtain ⟨buf, hshown⟩ := hok
    refine .returns _ _ (.inr ?_) rfl
    rw [(h.claims.shown_message hshown).1, toSsize_of_lt buf.2]
    exact Int.natCast_nonneg _

theorem Sees.reads {c : Claim} (h : Sees c pc) : pc.reads = some c.base.index := by
  cases pc with
  | idle | markedOffset _ | markedFlags _ _ | writeOffset _ | claiming _ _ | storing _ _ =>
    exact h.elim
  | boundary r => exact congrArg some h
  | entries r boundary | entry r boundary | flags r hdr | size r hdr => exact congrArg some h.1

/-- **A message that is stored is found**: the step of a reader that was given its offset. -/
theorem Sees.step {c : Claim} {buf : Buf} (h : Sees c pc) (hinv : PublishInv s) (hc : c ∈ s.claims)
    (hframe : c.frame = some buf) (hleft : s.left c = []) (hk : s.threads[k]? = some pc)
    (hstep : segStep s (k, .access) = some s') :
    (∃ pc', Sees c pc' ∧ s' = s.goto k pc') ∨
    ∃ fr, s' = s.answer k c.base.index (buf.1.length : Int) fr := by
  have haccess : s.access k pc = some s' := by
    simp only [segStep, hk] at hstep
    exact hstep
  have hsome : c.frame ≠ none := by
    rw [hframe]
    exact Option.some_ne_none _
  obtain ⟨hstop, hnext⟩ := hinv.claims.le c hc
  have hentry := hinv.claims.entry c hc hsome
  rw [hleft, if_pos rfl] at hentry
  have hshown : s.Shown c.base.index c.base.data buf :=
    ⟨c, hc, hframe, rfl, by rw [hleft]; exact Nat.zero_le 1⟩
  cases pc with
  | idle | markedOffset _ | markedFlags _ _ | writeOffset _ | claiming _ _ | storing _ _ =>
    exact h.elim
  | boundary r =>
    obtain rfl : r = c.base.index := h
    simp only [SegState.access] at haccess
    rw [hinv.flags_eq, if_neg (by decide)] at haccess
    cases haccess
    exact .inl ⟨.entries c.base.index _, ⟨rfl, Nat.lt_of_lt_of_le c.base_lt_stop hstop⟩, rfl⟩
  | entries r boundary =>
    obtain ⟨rfl, hbound⟩ := h
    rw [Claim.next_of_frame hsome] at hnext
    simp only [SegState.access, if_neg (Nat.not_le_of_lt hnext)] at haccess
    cases haccess
    exact .inl ⟨.entry c.base.index boundary, ⟨rfl, hbound⟩, rfl⟩
  | entry r boundary =>
    obtain ⟨rfl, hbound⟩ := h
    have hzero : ¬ (c.base.index ≠ 0 ∧ c.base.data = 0) := fun hz =>
      hz.1 (hinv.claims.index_eq_zero hc hz.2)
    simp only [SegState.access, hentry, if_neg hzero, if_neg (Nat.not_le_of_lt hbound)] at haccess
    cases haccess
    exact .inl ⟨.flags c.base.index c.base.data, ⟨rfl, rfl⟩, rfl⟩
  | flags r hdr =>
    obtain ⟨rfl, rfl⟩ := h
    simp only [SegState.access, if_pos (hinv.claims.shown_ready hshown)] at haccess
    cases haccess
    exact .inl ⟨.size c.base.index c.base.data, ⟨rfl, rfl⟩, rfl⟩
  | size r hdr =>
    obtain ⟨rfl, rfl⟩ := h
    simp only [SegState.access, (hinv.claims.shown_message hshown).1,
      toSsize_of_lt buf.2] at haccess
    cases haccess
    exact .inr ⟨_, rfl⟩

end Readers

end Mqlog
