/-
  Threads on one segment: `segment_write` and `segment_read`, access by access.

  A thread is between two accesses to shared memory: the reads of the write offset in `marked_eos`
  and `segment_write`, the compare-and-swap of `claim`, and then a list of stores that does not
  depend on anything read any more (`frameStores`, `eosStores`): the payload byte by byte, the
  fields of the header, the index entry.  A read is five reads.  `segStep` lets one thread make one
  access, so that a run is an interleaving.

  Beside the segment the state records what the threads have claimed and what `segment_read` has
  returned.  A thread that runs alone does what the functions of `Segment` say: `SegmentSolo`.

  The accesses of `segment_write` (`SegPc`):

      markedOffset   marked_eos reads the write offset
      markedFlags    marked_eos reads the flags twelve bytes in front of it
      writeOffset    segment_write reads the write offset, for its claim
      claiming       the compare-and-swap of claim
      storing        a store of the frame, as often as there are any

  and those of `segment_read`:

      boundary       the write offset or the synced offset
      entries        the number of entries
      entry          the entry of the message
      flags, size    the header of its frame

  Accesses are sequentially consistent, and each is one of a field as the code accesses it; `memcpy`
  stores byte by byte.  The compare-and-swap is of both offsets at once, as they are in one word.

  `segStep_effect` sorts the steps by what they do to the segment and the claims: nothing, or a read
  of the write offset for a claim, or a claim, or a store of a claim.  The invariants of the
  following modules are about these four, and do not look at the accesses again.
-/
import Mqlog.Lib.Run
import Mqlog.Segment

namespace Mqlog

open Lib (run Along)
open Lib.Mem

/-! ## Stores -/

/-- A store to the data file or to the index file. -/
inductive Store where
  | data (pos : Nat) (bytes : List UInt8)
  | index (i physicalOffset : Nat)
deriving DecidableEq, Repr

def Store.run (sgm : Segment) : Store → Segment
  | .data pos bytes => { sgm with buffer := store sgm.buffer pos bytes }
  | .index i physicalOffset => { sgm with index := store sgm.index i [physicalOffset] }

/-- `memcpy`, one byte at a time. -/
def memcpyStores (pos : Nat) : List UInt8 → List Store
  | [] => []
  | c :: l => .data pos [c] :: memcpyStores (pos + 1) l

/-- `header_init`. -/
def headerInitStores (hdr : Nat) : List Store :=
  [.data hdr (le16 headerFlagsEmpty), .data (hdr + 2) [headerVersion], .data (hdr + 3) [headerPad]]

/-- The stores of `segment_write` behind its claim. -/
def frameStores (curr : OffsetPair) (buf : Buf) : List Store :=
  memcpyStores (curr.data + headerSize) buf.1 ++ headerInitStores curr.data ++
    [.data (curr.data + 8) (le32 (crc32 0 buf.1).toNat),
      .data (curr.data + 4) (le32 ((headerSize + buf.1.length) % 2 ^ 64)),
      .data curr.data (le16 headerFlagsReady), .index curr.index curr.data]

/-- The stores of `mark_eos` behind its claim. -/
def eosStores (curr : OffsetPair) : List Store :=
  headerInitStores curr.data ++
    [.data (curr.data + 4) (le32 headerSize), .data curr.data (le16 headerFlagsEos)]

/-! ## Claims -/

/-- What a thread claims at the write offset `base`: a frame for a payload, or the end-of-segment
    frame. -/
structure Claim where
  thread : Nat
  base : OffsetPair
  frame : Option Buf
deriving DecidableEq

namespace Claim

/-- The number of bytes claimed. -/
def size (c : Claim) : Nat :=
  match c.frame with
  | some buf => headerSize + buf.1.length
  | none => headerSize

/-- The first position behind the claimed bytes. -/
def stop (c : Claim) : Nat := c.base.data + c.size

/-- The write offset that the claim asks for, as `segment_write` and `mark_eos` compute it. -/
def new (c : Claim) : OffsetPair :=
  match c.frame with
  | some buf => ⟨(c.base.index + 1) % 2 ^ 32,
      (c.base.data + (headerSize + buf.1.length) % 2 ^ 64) % 2 ^ 32⟩
  | none => ⟨c.base.index, (c.base.data + headerSize) % 2 ^ 32⟩

def stores (c : Claim) : List Store :=
  match c.frame with
  | some buf => frameStores c.base buf
  | none => eosStores c.base

end Claim

/-- What thread `k` claims for a payload when it has read the write offset `curr`. -/
def claimOf (sgm : Segment) (k : Nat) (buf : Buf) (curr : OffsetPair) : Claim :=
  let frameSize := (headerSize + buf.1.length) % 2 ^ 64
  if (sgm.size + (2 ^ 64 - curr.data)) % 2 ^ 64 < (headerSize + frameSize) % 2 ^ 64 then
    ⟨k, curr, none⟩
  else ⟨k, curr, some buf⟩

/-! ## The system -/

/-- The next access of a thread. -/
inductive SegPc where
  /-- None: the thread is in neither function. -/
  | idle
  /-- `marked_eos` reads the write offset. -/
  | markedOffset (buf : Buf)
  /-- `marked_eos` reads the flags of the last header. -/
  | markedFlags (buf : Buf) (hdr : Nat)
  /-- `segment_write` reads the write offset. -/
  | writeOffset (buf : Buf)
  /-- The compare-and-swap of `claim`. -/
  | claiming (buf : Buf) (curr : OffsetPair)
  /-- The stores that are left of a claim. -/
  | storing (c : Claim) (rest : List Store)
  /-- `segment_read` reads the boundary. -/
  | boundary (relativeOffset : Nat)
  /-- `segment_read` reads the number of entries. -/
  | entries (relativeOffset boundary : Nat)
  /-- `segment_read` reads the index. -/
  | entry (relativeOffset boundary : Nat)
  /-- `segment_read` reads the flags of the header. -/
  | flags (relativeOffset physicalOffset : Nat)
  /-- `segment_read` reads the size of the frame. -/
  | size (relativeOffset physicalOffset : Nat)
deriving DecidableEq

/-- What `segment_read` has returned. -/
structure Returned where
  relativeOffset : Nat
  rc : Int
  fr : Frame
deriving DecidableEq

structure SegState where
  sgm : Segment
  threads : List SegPc
  claims : List Claim
  returned : List Returned

/-- A thread calls one of the functions, or makes its next access. -/
inductive SegAct where
  | write (buf : Buf)
  | read (relativeOffset : Nat)
  | access
deriving DecidableEq

namespace SegState

def goto (s : SegState) (k : Nat) (pc : SegPc) : SegState :=
  { s with threads := s.threads.set k pc }

/-- Thread `k` returns from `segment_read`. -/
def answer (s : SegState) (k relativeOffset : Nat) (rc : Int) (fr : Frame) : SegState :=
  { s.goto k .idle with returned := s.returned ++ [⟨relativeOffset, rc, fr⟩] }

/-- Thread `k` makes the access that it is at. -/
def access (s : SegState) (k : Nat) : SegPc → Option SegState
  | .idle => none
  | .markedOffset buf =>
    let wOffset := s.sgm.wOffset.data
    if wOffset < headerSize then some (s.goto k (.writeOffset buf))
    else some (s.goto k (.markedFlags buf (wOffset - headerSize)))
  | .markedFlags buf hdr =>
    -- `segment_write` returns `ELEOS`
    if hdrFlags s.sgm.buffer hdr = headerFlagsEos then some (s.goto k .idle)
    else some (s.goto k (.writeOffset buf))
  | .writeOffset buf => some (s.goto k (.claiming buf s.sgm.wOffset))
  | .claiming buf curr =>
    let c := claimOf s.sgm k buf curr
    let (rc, sgm) := claim s.sgm curr c.new
    if rc ≠ 0 then some (s.goto k .idle)
    else some { s.goto k (.storing c c.stores) with sgm := sgm, claims := s.claims ++ [c] }
  | .storing _ [] => some (s.goto k .idle)
  | .storing c (st :: rest) => some { s.goto k (.storing c rest) with sgm := st.run s.sgm }
  | .boundary relativeOffset =>
    let boundary :=
      if s.sgm.flags &&& sgmRdcmt = sgmRdcmt then s.sgm.sOffset.data else s.sgm.wOffset.data
    some (s.goto k (.entries relativeOffset boundary))
  | .entries relativeOffset boundary =>
    if s.sgm.wOffset.index ≤ relativeOffset then
      some (s.answer k relativeOffset ELNORD ⟨none, none⟩)
    else some (s.goto k (.entry relativeOffset boundary))
  | .entry relativeOffset boundary =>
    let physicalOffset := s.sgm.index relativeOffset
    if relativeOffset ≠ 0 ∧ physicalOffset = 0 then
      some (s.answer k relativeOffset ELNORD ⟨none, none⟩)
    else if boundary ≤ physicalOffset then some (s.answer k relativeOffset ELNORD ⟨none, none⟩)
    else some (s.goto k (.flags relativeOffset physicalOffset))
  | .flags relativeOffset physicalOffset =>
    let flags := hdrFlags s.sgm.buffer physicalOffset
    if flags = headerFlagsReady then some (s.goto k (.size relativeOffset physicalOffset))
    else if flags = headerFlagsEos then
      some (s.answer k relativeOffset ELEOS ⟨some physicalOffset, none⟩)
    else some (s.answer k relativeOffset ELINVHD ⟨none, none⟩)
  | .size relativeOffset physicalOffset =>
    some (s.answer k relativeOffset (toSsize (framePayloadSize s.sgm.buffer physicalOffset))
      ⟨some physicalOffset, some (physicalOffset + headerSize)⟩)

end SegState

/-- Thread `i.1` does `i.2`; `none` when it is not at that point. -/
def segStep (s : SegState) (i : Nat × SegAct) : Option SegState :=
  match i.2, s.threads[i.1]? with
  | .write buf, some .idle => some (s.goto i.1 (.markedOffset buf))
  | .read relativeOffset, some .idle => some (s.goto i.1 (.boundary relativeOffset))
  | .access, some pc => s.access i.1 pc
  | _, _ => none

/-- `n` threads outside both functions, on a segment without claims. -/
def segInit (sgm : Segment) (n : Nat) : SegState := ⟨sgm, List.replicate n .idle, [], []⟩

/-! ## What a step can do -/

/-- A claim succeeds. -/
def SegState.claimed (s : SegState) (k : Nat) (c : Claim) : SegState :=
  { s.goto k (.storing c c.stores) with
    sgm := { s.sgm with wOffset := c.new }
    claims := s.claims ++ [c] }

/-- A store is made. -/
def SegState.stored (s : SegState) (k : Nat) (c : Claim) (st : Store) (rest : List Store) :
    SegState :=
  { s.goto k (.storing c rest) with sgm := st.run s.sgm }

/-- The cases of a step: a call, or an access. -/
theorem segStep_cases {s s' : SegState} {k : Nat} {act : SegAct}
    (h : segStep s (k, act) = some s') :
    (∃ buf, s.threads[k]? = some .idle ∧ s' = s.goto k (.markedOffset buf)) ∨
    (∃ relativeOffset, s.threads[k]? = some .idle ∧ s' = s.goto k (.boundary relativeOffset)) ∨
    (∃ pc, act = .access ∧ s.threads[k]? = some pc ∧ s.access k pc = some s') := by
  simp only [segStep] at h
  split at h
  · rename_i buf hk
    exact .inl ⟨buf, hk, (Option.some.inj h).symm⟩
  · rename_i relativeOffset hk
    exact .inr (.inl ⟨relativeOffset, hk, (Option.some.inj h).symm⟩)
  · rename_i pc hk
    exact .inr (.inr ⟨pc, rfl, hk, h⟩)
  · nomatch h

/-- The claim that a thread makes starts at the write offset that it has read. -/
theorem claimOf_base (sgm : Segment) (k : Nat) (buf : Buf) (curr : OffsetPair) :
    (claimOf sgm k buf curr).base = curr := by
  unfold claimOf
  dsimp only
  split
  · rfl
  · rfl

/-- How a compare-and-swap ends. -/
theorem access_claiming_cases {s s' : SegState} {k : Nat} {buf : Buf} {curr : OffsetPair}
    (h : s.access k (.claiming buf curr) = some s') :
    (s.sgm.wOffset ≠ curr ∧ s' = s.goto k .idle) ∨
    (s.sgm.wOffset = curr ∧ s' = s.claimed k (claimOf s.sgm k buf curr)) := by
  simp only [SegState.access, claim] at h
  by_cases hw : s.sgm.wOffset = curr
  · simp only [if_pos hw, ne_eq, not_true_eq_false, if_false] at h
    exact .inr ⟨hw, (Option.some.inj h).symm⟩
  · have hlock : ELLOCK ≠ 0 := by decide
    simp only [if_neg hw, ne_eq, hlock, not_false_eq_true, if_true] at h
    exact .inl ⟨hw, (Option.some.inj h).symm⟩

/-- Thread `k` moves on to `pc`, and was not storing; the segment and the claims stay as they
    are. -/
structure Moves (s : SegState) (k : Nat) (pc : SegPc) (s' : SegState) : Prop where
  was : ∀ c rest, s.threads[k]? ≠ some (.storing c rest)
  threads_eq : s'.threads = s.threads.set k pc
  sgm_eq : s'.sgm = s.sgm
  claims_eq : s'.claims = s.claims
  not_claiming : ∀ buf curr, pc ≠ .claiming buf curr
  not_storing : ∀ c rest, pc ≠ .storing c rest

/-- The thread is at the compare-and-swap of a claim. -/
def SegPc.isClaiming : SegPc → Bool
  | .claiming _ _ => true
  | _ => false

/-- The thread is in the stores of a claim. -/
def SegPc.isStoring : SegPc → Bool
  | .storing _ _ => true
  | _ => false

section Moves

variable {s : SegState} {k : Nat} {pc : SegPc}

theorem SegPc.ne_storing (h : pc.isStoring = false) (c : Claim) (rest : List Store) :
    pc ≠ .storing c rest := by
  rintro rfl
  cases h

theorem SegPc.ne_claiming (h : pc.isClaiming = false) (buf : Buf) (curr : OffsetPair) :
    pc ≠ .claiming buf curr := by
  rintro rfl
  cases h

theorem Moves.goto (hk : s.threads[k]? = some pc) (hpc : pc.isStoring = false) {pc' : SegPc}
    (hclaiming : pc'.isClaiming = false) (hstoring : pc'.isStoring = false) :
    Moves s k pc' (s.goto k pc') where
  was c rest hrest := by
    rw [hk] at hrest
    exact SegPc.ne_storing hpc c rest (Option.some.inj hrest)
  threads_eq := rfl
  sgm_eq := rfl
  claims_eq := rfl
  not_claiming := SegPc.ne_claiming hclaiming
  not_storing := SegPc.ne_storing hstoring

theorem Moves.answer (hk : s.threads[k]? = some pc) (hpc : pc.isStoring = false)
    (relativeOffset : Nat) (rc : Int) (fr : Frame) :
    Moves s k .idle (s.answer k relativeOffset rc fr) where
  was := (Moves.goto hk hpc (show SegPc.idle.isClaiming = false from rfl) rfl).was
  threads_eq := rfl
  sgm_eq := rfl
  claims_eq := rfl
  not_claiming := SegPc.ne_claiming rfl
  not_storing := SegPc.ne_storing rfl

end Moves

/-- **What a step does to the segment and the claims**: nothing, or it reads the write offset for a
    claim, or it makes a claim, or it makes a store of a claim. -/
theorem segStep_effect {s s' : SegState} {k : Nat} {act : SegAct}
    (h : segStep s (k, act) = some s') :
    (∃ pc, Moves s k pc s') ∨
    (∃ c, s.threads[k]? = some (.storing c []) ∧ s' = s.goto k .idle) ∨
    (∃ buf, act = .access ∧ s.threads[k]? = some (.writeOffset buf) ∧
      s' = s.goto k (.claiming buf s.sgm.wOffset)) ∨
    (∃ buf, act = .access ∧ s.threads[k]? = some (.claiming buf s.sgm.wOffset) ∧
      s' = s.claimed k (claimOf s.sgm k buf s.sgm.wOffset)) ∨
    (∃ c st rest, s.threads[k]? = some (.storing c (st :: rest)) ∧ s' = s.stored k c st rest) := by
  rcases segStep_cases h with ⟨buf, hk, rfl⟩ | ⟨relativeOffset, hk, rfl⟩ | ⟨pc, rfl, hk, haccess⟩
  · exact .inl ⟨_, .goto hk rfl rfl rfl⟩
  · exact .inl ⟨_, .goto hk rfl rfl rfl⟩
  cases pc with
  | idle => cases haccess
  | markedOffset buf =>
    simp only [SegState.access] at haccess
    split at haccess
    · cases haccess
      exact .inl ⟨_, .goto hk rfl rfl rfl⟩
    · cases haccess
      exact .inl ⟨_, .goto hk rfl rfl rfl⟩
  | markedFlags buf hdr =>
    simp only [SegState.access] at haccess
    split at haccess
    · cases haccess
      exact .inl ⟨_, .goto hk rfl rfl rfl⟩
    · cases haccess
      exact .inl ⟨_, .goto hk rfl rfl rfl⟩
  | writeOffset buf =>
    cases haccess
    exact .inr (.inr (.inl ⟨buf, rfl, hk, rfl⟩))
  | claiming buf curr =>
    rcases access_claiming_cases haccess with ⟨-, rfl⟩ | ⟨rfl, rfl⟩
    · exact .inl ⟨_, .goto hk rfl rfl rfl⟩
    · exact .inr (.inr (.inr (.inl ⟨buf, rfl, hk, rfl⟩)))
  | storing c rest =>
    cases rest with
    | nil =>
      cases haccess
      exact .inr (.inl ⟨c, hk, rfl⟩)
    | cons st rest =>
      cases haccess
      exact .inr (.inr (.inr (.inr ⟨c, st, rest, hk, rfl⟩)))
  | boundary relativeOffset =>
    cases haccess
    exact .inl ⟨_, .goto hk rfl rfl rfl⟩
  | entries relativeOffset boundary =>
    simp only [SegState.access] at haccess
    split at haccess
    · cases haccess
      exact .inl ⟨_, .answer hk rfl _ _ _⟩
    · cases haccess
      exact .inl ⟨_, .goto hk rfl rfl rfl⟩
  | entry relativeOffset boundary =>
    simp only [SegState.access] at haccess
    split at haccess
    · cases haccess
      exact .inl ⟨_, .answer hk rfl _ _ _⟩
    split at haccess
    · cases haccess
      exact .inl ⟨_, .answer hk rfl _ _ _⟩
    · cases haccess
      exact .inl ⟨_, .goto hk rfl rfl rfl⟩
  | flags relativeOffset physicalOffset =>
    simp only [SegState.access] at haccess
    split at haccess
    · cases haccess
      exact .inl ⟨_, .goto hk rfl rfl rfl⟩
    split at haccess
    · cases haccess
      exact .inl ⟨_, .answer hk rfl _ _ _⟩
    · cases haccess
      exact .inl ⟨_, .answer hk rfl _ _ _⟩
  | size relativeOffset physicalOffset =>
    cases haccess
    exact .inl ⟨_, .answer hk rfl _ _ _⟩

end Mqlog
