/-
  What a crash of the machine leaves of a segment that one thread syncs while others write to it.

  1. **Stores fill in zeros** (`Store.Fills`) — a byte of a claim is zero until it is stored, and is
     then stored once.  So every byte that is on disk, of whatever moment, is zero or the byte of
     the whole segment, which has all claims stored (`DiskInv`).
  2. **What is synced** (`OnDisk`, `IndexOnDisk`) — the claims below the synced offset are stored,
     and what is in memory below it is on disk.  `msync` gets there byte by byte.
  3. **The crash** — the files are those of a session that synced the messages below the synced
     offset and wrote the others (`DiskInv.crashed`), so that what is proved of a crashed session
     holds of them.

  A claim that is in flight when `segment_sync` reads the write offset is passed over for good: the
  offset moves behind it, and no later sync begins before the page of the synced offset.  So a sync
  reads the offset while no store is left to make (`Orderly`).

  The crux is that a page may go to disk at any moment, while a frame on it is half stored, and
  again later or never.  The disk is then no state that the memory was ever in.  But it lies between
  zero and the whole segment, byte by byte, and that is all a crashed session needs: each byte and
  entry is the one of the session or that of the last sync (`CrashImage`).

  The invariant has three parts, one for each kind of step:

    * `DiskInv`, for the threads that write and read: they claim and store behind what is synced,
      and leave alone what is stored (`LeavesStored`);
    * `SyncOk`, for the thread that syncs: between its accesses it has written some of a range and
      has the rest to write (`OnDisk`, `IndexOnDisk`, with the bytes that are `left`);
    * `Durable` and `CaughtUp`, for what the caller has been told: the first `n` messages are below
      both synced offsets, which move up one after the other.

  `DurableInv.step` goes through the steps: `DurableInv.thread` for the first kind, one lemma for
  each access of `segment_sync`, and one each for a byte and an entry that the system writes to
  disk.
-/
import Mqlog.SegmentCrash
import Mqlog.SegmentSyncThreads

namespace Mqlog

open Lib (run Along)
open Lib.Mem Lib.Records

/-! ## Stores fill in zeros -/

/-- The byte that a store puts at `p`. -/
def Store.byteAt (p : Nat) : Store → Option UInt8
  | .data pos bytes => if pos ≤ p then bytes[p - pos]? else none
  | .index _ _ => none

/-- The second store puts its bytes where the first one put zeros, or nothing. -/
def Store.Fills (st st' : Store) : Prop := ∀ p, st'.byteAt p ≠ none → (st.byteAt p).getD 0 = 0

section Fills

/-- A byte behind a store: the one stored, or the old one. -/
theorem Store.bytes_eq (st : Store) (m : Nat → UInt8) (p : Nat) :
    st.bytes m p = (st.byteAt p).getD (m p) := by
  cases st with
  | data pos bytes =>
    show store m pos bytes p = _
    rw [store, Store.byteAt]
    split
    · rfl
    · rfl
  | index i physicalOffset => rfl

/-- A byte that no store is about. -/
theorem written_of_none {m : Nat → UInt8} {p : Nat} :
    ∀ (l : List Store), (∀ st ∈ l, st.byteAt p = none) →
    written m l p = m p
  | [], _ => rfl
  | st :: l, h => by
    rw [written_cons, written_of_none l fun st' hst' => h st' (List.mem_cons_of_mem _ hst'),
      st.bytes_eq, h st List.mem_cons_self]
    rfl

/-- Who has stored a byte. -/
theorem written_cases (p : Nat) : ∀ (l : List Store) (m : Nat → UInt8),
    written m l p = m p ∨ ∃ st ∈ l, st.byteAt p = some (written m l p)
  | [], _ => .inl rfl
  | st :: l, m => by
    rw [written_cons]
    rcases written_cases p l (st.bytes m) with heq | ⟨st', hst', heq⟩
    · rw [heq, st.bytes_eq]
      cases hbyte : st.byteAt p with
      | none => exact .inl rfl
      | some c => exact .inr ⟨st, List.mem_cons_self, hbyte⟩
    · exact .inr ⟨st', List.mem_cons_of_mem _ hst', heq⟩

/-- **A byte that is not zero stays**, where stores fill in zeros. -/
theorem written_zero_or {done rest : List Store} (h : (done ++ rest).Pairwise Store.Fills)
    (p : Nat) :
    written (fun _ => 0) done p = 0 ∨
      written (fun _ => 0) done p = written (fun _ => 0) (done ++ rest) p := by
  rcases written_cases p done fun _ => 0 with hzero | ⟨st, hst, hbyte⟩
  · exact .inl hzero
  · by_cases hzero : written (fun _ => 0) done p = 0
    · exact .inl hzero
    · right
      rw [written_append]
      refine (written_of_none rest fun st' hst' => ?_).symm
      by_contra hnone
      have hfills := (List.pairwise_append.mp h).2.2 st hst st' hst' p hnone
      rw [hbyte] at hfills
      exact hzero hfills

/-- A store within a range stores no byte outside. -/
theorem Store.Within.byteAt {a b p : Nat} {st : Store} (h : st.Within a b)
    (hp : st.byteAt p ≠ none) :
    a ≤ p ∧ p < b := by
  cases st with
  | data pos bytes =>
    obtain ⟨hlo, hhi⟩ := h
    rw [Store.byteAt] at hp
    split at hp
    · have hlt : p - pos < bytes.length := by
        rw [← Nat.not_le]
        exact fun hge => hp (List.getElem?_eq_none hge)
      omega
    · exact absurd rfl hp
  | index i physicalOffset => exact absurd rfl hp

/-- Stores in disjoint ranges. -/
theorem Store.Within.fills {a b a' b' : Nat} {st st' : Store} (h : st.Within a b)
    (h' : st'.Within a' b') (hapart : b ≤ a' ∨ b' ≤ a) : st.Fills st' := by
  intro p hp
  have hin' := h'.byteAt hp
  cases hbyte : st.byteAt p with
  | none => rfl
  | some c =>
    have hin := h.byteAt (p := p) (by rw [hbyte]; exact Option.some_ne_none c)
    omega

/-- The stores of `memcpy` are about different bytes. -/
theorem fills_memcpyStores : ∀ (l : List UInt8) (pos : Nat),
    (memcpyStores pos l).Pairwise Store.Fills
  | [], _ => List.Pairwise.nil
  | c :: l, pos => by
    refine List.pairwise_cons.mpr ⟨fun st hst => ?_, fills_memcpyStores l (pos + 1)⟩
    have hfirst : (Store.data pos [c]).Within pos (pos + 1) := ⟨Nat.le_refl _, Nat.le_refl _⟩
    exact hfirst.fills (within_memcpyStores l hst) (.inl (Nat.le_refl _))

/-- `header_init` stores zeros. -/
theorem fills_headerInitStores {hdr : Nat} {st : Store} (h : st ∈ headerInitStores hdr)
    (st' : Store) :
    st.Fills st' := by
  have hzero : ∀ (pos : Nat) (bytes : List UInt8), (∀ c ∈ bytes, c = 0) →
      (Store.data pos bytes).Fills st' := by
    intro pos bytes hbytes p _
    rw [Store.byteAt]
    split
    · cases hbyte : bytes[p - pos]? with
      | none => rfl
      | some c => exact hbytes c (List.mem_of_getElem? hbyte)
    · rfl
  simp only [headerInitStores, List.mem_cons, List.not_mem_nil, or_false] at h
  rcases h with rfl | rfl | rfl
  · exact hzero _ _ (by simp [le16, headerFlagsEmpty])
  · exact hzero _ _ (by simp [headerVersion])
  · exact hzero _ _ (by simp [headerPad])

/-- `header_init`, and what is stored behind it. -/
theorem fills_init {hdr : Nat} {l : List Store} (h : l.Pairwise Store.Fills) :
    (headerInitStores hdr ++ l).Pairwise Store.Fills := by
  refine List.pairwise_append.mpr ⟨?_, h, fun st hst st' _ => fills_headerInitStores hst st'⟩
  exact List.pairwise_of_forall_mem_list fun st hst st' _ => fills_headerInitStores hst st'

/-- **The stores of a claim fill in zeros.** -/
theorem Claim.fills (c : Claim) : c.stores.Pairwise Store.Fills := by
  have h12 : headerSize = 12 := rfl
  obtain ⟨k, base, frame⟩ := c
  have hflags : ∀ n, (Store.data base.data (le16 n)).Within base.data (base.data + 2) := fun n =>
    ⟨Nat.le_refl _, by rw [length_le16]⟩
  have hsize : ∀ n, (Store.data (base.data + 4) (le32 n)).Within (base.data + 4) (base.data + 8) :=
    fun n =>
    ⟨Nat.le_refl _, by rw [length_le32]⟩
  cases frame with
  | none =>
    show (eosStores base).Pairwise Store.Fills
    refine fills_init (List.pairwise_pair.mpr ?_)
    exact (hsize _).fills (hflags _) (.inr (by omega))
  | some buf =>
    show (frameStores base buf).Pairwise Store.Fills
    have hcrc : ∀ n, (Store.data (base.data + 8) (le32 n)).Within (base.data + 8) (base.data +
      12) := fun n =>
      ⟨Nat.le_refl _, by rw [length_le32]⟩
    have hindex : ∀ st : Store, st.Fills (.index base.index base.data) :=
      fun st p hp => absurd rfl hp
    rw [frameStores, List.append_assoc]
    refine List.pairwise_append.mpr ⟨fills_memcpyStores _ _, fills_init ?_, fun st hst st' hst' =>
      ?_⟩
    · simp only [List.pairwise_cons, List.mem_cons, List.not_mem_nil, or_false, forall_eq_or_imp,
        forall_eq, IsEmpty.forall_iff, implies_true, List.Pairwise.nil, and_true]
      exact ⟨⟨(hcrc _).fills (hsize _) (.inr (by omega)), (hcrc _).fills (hflags _)
        (.inr (by omega)), hindex _⟩, ⟨(hsize _).fills (hflags _) (.inr (by omega)), hindex _⟩,
          hindex _⟩
    · -- the payload is behind the header
      have hbehind := within_memcpyStores _ hst
      rcases List.mem_append.mp hst' with hst' | hst'
      · exact hbehind.fills (within_headerInitStores (Nat.le_refl _) hst') (.inr (by omega))
      · simp only [List.mem_cons, List.not_mem_nil, or_false] at hst'
        rcases hst' with rfl | rfl | rfl | rfl
        · exact hbehind.fills (hcrc _) (.inr (by omega))
        · exact hbehind.fills (hsize _) (.inr (by omega))
        · exact hbehind.fills (hflags _) (.inr (by omega))
        · exact hindex _

end Fills

/-! ## The whole segment -/

namespace SegState

/-- The data of the segment when every claim is stored. -/
def whole (s : SegState) : Nat → UInt8 := padded 0 (image Claim.bytes s.claims)

/-- The index of the segment when every claim is stored. -/
def wholeIndex (s : SegState) : Nat → Nat := padded 0 (starts frame (payloads s.claims))

end SegState

section Whole

variable {size : Nat} {fresh : Segment} {s s' : SegState}

/-- The claim that a byte belongs to. -/
theorem SerialInv.claim_at (h : SerialInv size fresh s) {p : Nat} (hp : p < s.sgm.wOffset.data) :
    ∃ c ∈ s.claims, c.base.data ≤ p ∧ p < c.stop ∧ s.whole p = written (fun _ => 0) c.stores p := by
  have hlength : p < (image Claim.bytes s.claims).length := by
    rw [h.offset] at hp
    exact hp
  obtain ⟨k, hk, hlo, hhi⟩ := exists_start hlength
  have hbase : s.claims[k].base.data = start Claim.bytes s.claims k := by rw [h.base k hk]
  have hsize : (Claim.bytes s.claims[k]).length = s.claims[k].size := Claim.length_bytes _
  rw [hsize, ← hbase] at hhi
  rw [← hbase] at hlo
  refine ⟨s.claims[k], List.getElem_mem hk, hlo, hhi, ?_⟩
  have hi : p - s.claims[k].base.data < (Claim.bytes s.claims[k]).length := by omega
  have hcell := getElem?_image (f := Claim.bytes) hk hi
  rw [← hbase, Nat.add_sub_cancel' hlo] at hcell
  rw [SegState.whole, padded, hcell]
  have hload := List.getElem_of_eq (Claim.load_stores s.claims[k]).symm hi
  simp only [load, List.getElem_map, List.getElem_range, Nat.add_sub_cancel' hlo] at hload
  exact hload

/-- **A byte in memory** is zero or that of the whole segment. -/
theorem SerialInv.buffer_zero_or (h : SerialInv size fresh s) (p : Nat) :
    s.sgm.buffer p = 0 ∨ s.sgm.buffer p = s.whole p := by
  rcases Nat.lt_or_ge p s.sgm.wOffset.data with hlt | hge
  · obtain ⟨c, hc, hlo, hhi, hwhole⟩ := h.claim_at hlt
    obtain ⟨done, hdone, hbytes⟩ := h.claims.progress c hc
    have hfills := c.fills
    rw [← hdone] at hfills
    rw [hwhole, hbytes p hlo hhi, ← hdone]
    exact written_zero_or hfills p
  · exact .inl (h.claims.clear p hge)

/-- Where the claims are stored it is that of the whole segment. -/
theorem SerialInv.buffer_eq_whole (h : SerialInv size fresh s) {d p : Nat}
    (hstored : ∀ c ∈ s.claims, c.base.data < d → s.left c = []) (hd : d ≤ s.sgm.wOffset.data)
    (hp : p < d) :
    s.sgm.buffer p = s.whole p := by
  obtain ⟨c, hc, hlo, hhi, hwhole⟩ := h.claim_at (Nat.lt_of_lt_of_le hp hd)
  obtain ⟨done, hdone, hbytes⟩ := h.claims.progress c hc
  rw [hstored c hc (Nat.lt_of_le_of_lt hlo hp), List.append_nil] at hdone
  rw [hwhole, hbytes p hlo hhi, hdone]

/-- Entry `i` of the whole index is where the `i`-th frame starts. -/
theorem wholeIndex_of_lt {i : Nat} (hi : i < (payloads s.claims).length) :
    s.wholeIndex i = start frame (payloads s.claims) i := by
  rw [SegState.wholeIndex, padded_of_lt (by rwa [length_starts]), getElem_starts]

/-- **An entry in memory** is zero or that of the whole segment. -/
theorem SerialInv.index_cases (h : SerialInv size fresh s) (i : Nat) :
    s.sgm.index i = s.wholeIndex i ∨ s.sgm.index i = 0 ∧
      ((payloads s.claims).length ≤ i ∨ ∃ c ∈ s.claims, c.frame ≠ none ∧ c.base.index = i ∧
        s.left c ≠ []) := by
  rcases Nat.lt_or_ge i (payloads s.claims).length with hlt | hge
  · obtain ⟨c, hc, hframe, hbase⟩ := h.claim_eq hlt
    have hne : c.frame ≠ none := by
      rw [hframe]
      exact Option.some_ne_none _
    have hentry := h.claims.entry c hc hne
    rw [hbase] at hentry
    by_cases hleft : s.left c = []
    · rw [if_pos hleft] at hentry
      exact .inl (hentry.trans (wholeIndex_of_lt hlt).symm)
    · rw [if_neg hleft] at hentry
      exact .inr ⟨hentry, .inr ⟨c, hc, hne, by rw [hbase], hleft⟩⟩
  · refine .inr ⟨h.claims.clear_index i ?_, .inl hge⟩
    rw [h.offset]
    exact hge

end Whole

/-! ## What a step leaves alone -/

/-- A step of a thread that writes or reads: the synced offset and the disk stay as they are, and so
    does what is stored. -/
structure LeavesStored (s s' : SegState) : Prop where
  later : Later s s'
  claims : ∃ l, s'.claims = s.claims ++ l ∧ ∀ c ∈ l, c.base = s.sgm.wOffset
  cleared : s'.sgm.cleared = s.sgm.cleared
  buffer : ∀ p, (∀ c ∈ s.claims, c.base.data ≤ p → s.left c = []) → s'.sgm.buffer p = s.sgm.buffer p
  index : ∀ i, (∀ c ∈ s.claims, c.frame ≠ none → c.base.index = i → s.left c = []) →
    s'.sgm.index i = s.sgm.index i

section Leaves

variable {size : Nat} {fresh : Segment} {s s' : SegState}

/-- Threads that write and read leave alone what is stored. -/
theorem SerialInv.leaves (h : SerialInv size fresh s) (hsmall : size < 2 ^ 32) {i : Nat × SegAct}
    (hstep : segStep s i = some s') : LeavesStored s s' := by
  have hlater := (h.claims.step (h.wrapsClaim_eq hsmall hstep) hstep).2
  obtain ⟨k, act⟩ := i
  rcases segStep_effect hstep with ⟨pc, hmoves⟩ | ⟨c, -, rfl⟩ | ⟨buf, -, -, rfl⟩ |
    ⟨buf, rfl, hk, rfl⟩ |
    ⟨c, st, rest, hk, rfl⟩
  · refine ⟨hlater, ⟨[], ?_, fun c hc => absurd hc List.not_mem_nil⟩, ?_, fun p _ => ?_,
      fun i _ => ?_⟩
    · rw [hmoves.claims_eq, List.append_nil]
    · rw [hmoves.sgm_eq]
    · rw [hmoves.sgm_eq]
    · rw [hmoves.sgm_eq]
  · exact ⟨hlater, ⟨[], (List.append_nil _).symm, fun c hc => absurd hc List.not_mem_nil⟩, rfl,
      fun _ _ => rfl, fun _ _ => rfl⟩
  · exact ⟨hlater, ⟨[], (List.append_nil _).symm, fun c hc => absurd hc List.not_mem_nil⟩, rfl,
      fun _ _ => rfl, fun _ _ => rfl⟩
  · refine ⟨hlater, ⟨[_], rfl, fun c hc => ?_⟩, rfl, fun _ _ => rfl, fun _ _ => rfl⟩
    rw [List.mem_singleton.mp hc]
    exact claimOf_base ..
  · obtain ⟨hc, -, hleft, -⟩ := h.claims.next_store hk
    refine ⟨hlater, ⟨[], (List.append_nil _).symm, fun c hc => absurd hc List.not_mem_nil⟩, ?_,
      fun p hp => ?_, fun i hi => ?_⟩
    · cases st with
      | data pos bytes => rfl
      | index i physicalOffset => rfl
    · refine h.claims.stored_buffer hk (.inl ?_)
      rw [← Nat.not_le]
      intro hle
      have hnil := hp c hc hle
      rw [hleft] at hnil
      cases hnil
    · refine h.claims.stored_index hk fun hframe heq => ?_
      have hnil := hi c hc hframe heq.symm
      rw [hleft] at hnil
      cases hnil

namespace LeavesStored

/-- A claim without stores left stays so. -/
theorem left_eq (h : LeavesStored s s') {c : Claim} (hc : c ∈ s.claims) (hleft : s.left c = []) :
    s'.left c = [] := by
  have hle := h.later.left_le c hc
  rw [hleft, List.length_nil] at hle
  exact List.eq_nil_of_length_eq_zero (Nat.le_zero.mp hle)

/-- Payloads are accepted one behind the other. -/
theorem payloads_eq (h : LeavesStored s s') : ∃ l, payloads s'.claims = payloads s.claims ++ l := by
  obtain ⟨l, hl, -⟩ := h.claims
  exact ⟨payloads l, by rw [hl, payloads_append]⟩

/-- Threads that write and read leave the synced offset alone. -/
theorem sOffset_eq (h : LeavesStored s s') : s'.sgm.sOffset = s.sgm.sOffset := by
  have heq := congrArg Segment.sOffset h.cleared
  exact heq

/-- Threads that write and read leave the data on disk alone. -/
theorem dataDisk_eq (h : LeavesStored s s') : s'.sgm.dataDisk = s.sgm.dataDisk := by
  have heq := congrArg Segment.dataDisk h.cleared
  exact heq

/-- Threads that write and read leave the index on disk alone. -/
theorem indexDisk_eq (h : LeavesStored s s') : s'.sgm.indexDisk = s.sgm.indexDisk := by
  have heq := congrArg Segment.indexDisk h.cleared
  exact heq

/-- A byte of the whole segment is decided once. -/
theorem whole_eq (h : LeavesStored s s') {p : Nat} : s.whole p = 0 ∨ s'.whole p = s.whole p := by
  obtain ⟨l, hl, -⟩ := h.claims
  rcases Nat.lt_or_ge p (image Claim.bytes s.claims).length with hlt | hge
  · right
    rw [SegState.whole, SegState.whole, hl, image_append, padded_append_of_lt hlt]
  · exact .inl (padded_of_ge hge)

/-- An entry of the whole index is decided once. -/
theorem wholeIndex_eq (h : LeavesStored s s') {i : Nat} : s.wholeIndex i = 0 ∨
    s'.wholeIndex i = s.wholeIndex i := by
  obtain ⟨l, hl⟩ := h.payloads_eq
  rcases Nat.lt_or_ge i (payloads s.claims).length with hlt | hge
  · right
    rw [wholeIndex_of_lt hlt, wholeIndex_of_lt (by rw [hl, List.length_append]; omega), hl,
      start_append (Nat.le_of_lt hlt)]
  · exact .inl (padded_of_ge (by rwa [length_starts]))

end LeavesStored

end Leaves

/-! ## What is on disk -/

/-- The claims below `d` are stored, and all bytes below `d` are on disk but those in `left`. -/
structure OnDisk (s : SegState) (d : Nat) (left : List Nat) : Prop where
  le : d ≤ s.sgm.wOffset.data
  stored : ∀ c ∈ s.claims, c.base.data < d → s.left c = []
  disk : ∀ p, p < d → p ∉ left → s.sgm.dataDisk p = s.sgm.buffer p

/-- The first `n` messages are stored, and their entries are on disk but those in `left`. -/
structure IndexOnDisk (s : SegState) (n : Nat) (left : List Nat) : Prop where
  le : n ≤ s.sgm.wOffset.index
  stored : ∀ c ∈ s.claims, c.frame ≠ none → c.base.index < n → s.left c = []
  disk : ∀ i, i < n → i ∉ left → s.sgm.indexDisk i = s.sgm.index i

/-- The messages whose data are below the synced offset are among the first `n`. -/
def CaughtUp (s : SegState) (n : Nat) : Prop :=
  ∀ c ∈ s.claims, c.frame ≠ none → c.base.data < s.sgm.sOffset.data → c.base.index < n

/-- The first `n` messages are below the synced offset. -/
structure Durable (s : SegState) (n : Nat) : Prop where
  le : n ≤ (payloads s.claims).length
  index : n ≤ s.sgm.sOffset.index
  data : start frame (payloads s.claims) n ≤ s.sgm.sOffset.data

/-- What the thread that syncs has got done. -/
def SyncOk (page : PageSize) (s : SegState) : SyncPc → Prop
  | .idle => CaughtUp s s.sgm.sOffset.index
  | .dataOffset known => CaughtUp s s.sgm.sOffset.index ∧ known ≤ (payloads s.claims).length
  | .msyncData known wOffset syncSize left =>
    CaughtUp s s.sgm.sOffset.index ∧ known ≤ (payloads s.claims).length ∧
      start frame (payloads s.claims) known ≤ wOffset ∧ s.sgm.sOffset.data ≤ wOffset ∧
      OnDisk s wOffset left ∧ syncSize = wOffset - syncStart page s.sgm
  | .indexOffset known => known ≤ (payloads s.claims).length ∧
      start frame (payloads s.claims) known ≤ s.sgm.sOffset.data
  | .msyncIndex known wIndex length left => known ≤ (payloads s.claims).length ∧
      start frame (payloads s.claims) known ≤ s.sgm.sOffset.data ∧ known ≤ wIndex ∧
      s.sgm.sOffset.index ≤ wIndex ∧ CaughtUp s wIndex ∧ IndexOnDisk s wIndex left ∧
      length = wIndex - s.sgm.sOffset.index

section Threads

variable {page : PageSize} {size : Nat} {s s' : SegState} {d n : Nat} {left : List Nat}

/-- What is on disk stays there while others write. -/
theorem OnDisk.leaves (h : OnDisk s d left) (hleaves : LeavesStored s s') : OnDisk s' d left where
  le := Nat.le_trans h.le hleaves.later.data_le
  stored c hc hbase := by
    obtain ⟨l, hl, hnew⟩ := hleaves.claims
    rw [hl] at hc
    rcases List.mem_append.mp hc with hc | hc
    · exact hleaves.left_eq hc (h.stored c hc hbase)
    · have hle := h.le
      rw [hnew c hc] at hbase
      omega
  disk p hp hleft := by
    rw [hleaves.dataDisk_eq, h.disk p hp hleft]
    exact (hleaves.buffer p fun c hc hle => h.stored c hc (Nat.lt_of_le_of_lt hle hp)).symm

/-- The entries on disk stay there while others write. -/
theorem IndexOnDisk.leaves (h : IndexOnDisk s n left) (hleaves : LeavesStored s s') :
    IndexOnDisk s' n left where
  le := Nat.le_trans h.le hleaves.later.index_le
  stored c hc hframe hbase := by
    obtain ⟨l, hl, hnew⟩ := hleaves.claims
    rw [hl] at hc
    rcases List.mem_append.mp hc with hc | hc
    · exact hleaves.left_eq hc (h.stored c hc hframe hbase)
    · have hle := h.le
      rw [hnew c hc] at hbase
      omega
  disk i hi hleft := by
    rw [hleaves.indexDisk_eq, h.disk i hi hleft]
    exact (hleaves.index i fun c hc hframe heq => h.stored c hc hframe (heq ▸ hi)).symm

/-- A new claim is not below the synced offset. -/
theorem CaughtUp.leaves (h : CaughtUp s n) (hle : s.sgm.sOffset.data ≤ s.sgm.wOffset.data)
    (hleaves : LeavesStored s s') : CaughtUp s' n := by
  intro c hc hframe hbase
  obtain ⟨l, hl, hnew⟩ := hleaves.claims
  rw [hleaves.sOffset_eq] at hbase
  rw [hl] at hc
  rcases List.mem_append.mp hc with hc | hc
  · exact h c hc hframe hbase
  · rw [hnew c hc] at hbase
    omega

/-- The first messages stay where they are. -/
theorem LeavesStored.start_eq (hleaves : LeavesStored s s') (hn : n ≤ (payloads s.claims).length) :
    n ≤ (payloads s'.claims).length ∧
      start frame (payloads s'.claims) n = start frame (payloads s.claims) n := by
  obtain ⟨l, hl⟩ := hleaves.payloads_eq
  rw [hl, List.length_append]
  exact ⟨Nat.le_trans hn (Nat.le_add_right ..), start_append hn⟩

/-- What is durable stays so while others write. -/
theorem Durable.leaves (h : Durable s n) (hleaves : LeavesStored s s') : Durable s' n := by
  obtain ⟨hle, hstart⟩ := hleaves.start_eq h.le
  refine ⟨hle, ?_, ?_⟩
  · rw [hleaves.sOffset_eq]
    exact h.index
  · rw [hstart, hleaves.sOffset_eq]
    exact h.data

/-- A sync under way is not disturbed by others. -/
theorem SyncOk.leaves {pc : SyncPc} (h : SyncOk page s pc)
    (hle : s.sgm.sOffset.data ≤ s.sgm.wOffset.data) (hleaves : LeavesStored s s') :
    SyncOk page s' pc := by
  have hsOffset := hleaves.sOffset_eq
  cases pc with
  | idle =>
    rw [SyncOk, hsOffset]
    exact CaughtUp.leaves h hle hleaves
  | dataOffset known =>
    rw [SyncOk, hsOffset]
    exact ⟨h.1.leaves hle hleaves, (hleaves.start_eq h.2).1⟩
  | msyncData known wOffset syncSize left =>
    obtain ⟨hcaught, hknown, hstart, hs, hdisk, hsize⟩ := h
    obtain ⟨hknown', hstart'⟩ := hleaves.start_eq hknown
    rw [SyncOk, hstart', syncStart, hsOffset]
    exact ⟨hcaught.leaves hle hleaves, hknown', hstart, hs, hdisk.leaves hleaves, hsize⟩
  | indexOffset known =>
    obtain ⟨hknown', hstart'⟩ := hleaves.start_eq h.1
    rw [SyncOk, hstart', hsOffset]
    exact ⟨hknown', h.2⟩
  | msyncIndex known wIndex length left =>
    obtain ⟨hknown, hstart, hle', hs, hcaught, hdisk, hlength⟩ := h
    obtain ⟨hknown', hstart'⟩ := hleaves.start_eq hknown
    rw [SyncOk, hstart', hsOffset]
    exact ⟨hknown', hstart, hle', hs, hcaught.leaves hle hleaves, hdisk.leaves hleaves, hlength⟩

end Threads

/-- The segment in memory, and what of it is on disk. -/
structure DiskInv (size : Nat) (s : SegState) : Prop where
  serial : SerialInv size s.sgm.cleared s
  data_torn : ∀ p, s.sgm.dataDisk p = 0 ∨ s.sgm.dataDisk p = s.whole p
  index_torn : ∀ i, s.sgm.indexDisk i = 0 ∨ s.sgm.indexDisk i = s.wholeIndex i
  data : OnDisk s s.sgm.sOffset.data []
  index : IndexOnDisk s s.sgm.sOffset.index []

/-- What holds in every state. -/
structure DurableInv (page : PageSize) (size : Nat) (s : SyncState) : Prop where
  disk : DiskInv size s.seg
  sync : SyncOk page s.seg s.sync
  synced : ∀ r ∈ s.synced, 0 ≤ r.rc → Durable s.seg r.known

/-- `segment_sync` reads the write offset while no store of a claim is left to make, and puts the
    index on disk. -/
def SyncPc.Orderly (seg : SegState) (msync : Bool) : SyncPc → Prop
  | .dataOffset _ => seg.Quiet
  | .indexOffset _ => seg.Quiet
  | .msyncIndex _ _ _ _ => msync = true
  | _ => True

/-- The threads claim in front of the seal only, and `segment_sync` finds no claim in flight. -/
def Orderly (s : SyncState) : SyncAct → Prop
  | .thread i => readsSealed s.seg i = false
  | .access msync => s.sync.Orderly s.seg msync
  | _ => True

/-- The stores that a thread has left to make. -/
def SegPc.storesLeft : SegPc → List Store
  | .storing _ rest => rest
  | _ => []

/-- Whether no store is left can be read off the threads. -/
theorem SegState.quiet_iff {s : SegState} : (∀ pc ∈ s.threads, pc.storesLeft = []) ↔ s.Quiet := by
  constructor
  · intro h k c rest hk
    exact h _ (List.mem_of_getElem? hk)
  · intro h pc hpc
    obtain ⟨k, hk, rfl⟩ := List.getElem_of_mem hpc
    cases hpc : s.threads[k] with
    | storing c rest => exact h k c rest (by rw [List.getElem?_eq_getElem hk, hpc])
    | _ => rfl

instance (s : SegState) : Decidable s.Quiet := decidable_of_iff _ s.quiet_iff

instance (seg : SegState) (msync : Bool) : ∀ pc : SyncPc, Decidable (pc.Orderly seg msync)
  | .idle | .msyncData _ _ _ _ => isTrue trivial
  | .dataOffset _ | .indexOffset _ => inferInstanceAs (Decidable seg.Quiet)
  | .msyncIndex _ _ _ _ => inferInstanceAs (Decidable (msync = true))

instance (s : SyncState) : ∀ act : SyncAct, Decidable (Orderly s act)
  | .thread _ => inferInstanceAs (Decidable (_ = _))
  | .access _ => inferInstanceAs (Decidable (SyncPc.Orderly ..))
  | .sync | .writeByte _ | .writeEntry _ => isTrue trivial

section Disk

variable {page : PageSize} {size : Nat} {s s' : SegState} {d n : Nat} {left : List Nat}

/-- The claims do not depend on what is synced and on disk. -/
theorem SerialInv.put {fresh : Segment} (h : SerialInv size fresh s) (o : OffsetPair)
    (data : Nat → UInt8) (index : Nat → Nat) :
    SerialInv size { s.sgm.cleared with sOffset := o, dataDisk := data, indexDisk := index }
      (s.put { s.sgm with sOffset := o, dataDisk := data, indexDisk := index }) where
  claims := ⟨h.claims.small, h.claims.le, h.claims.before, h.claims.first, h.claims.covers,
    h.claims.clear, h.claims.clear_index, h.claims.storing, h.claims.progress, h.claims.entry⟩
  seals := ⟨h.seals.size_eq, h.seals.last, h.seals.stop_le, h.seals.written_le, h.seals.room,
    h.seals.claiming⟩
  offset := h.offset
  base := h.base
  cleared := rfl

/-- What holds of the disk holds while others write. -/
theorem DiskInv.leaves (h : DiskInv size s) (hserial : SerialInv size s.sgm.cleared s')
    (hleaves : LeavesStored s s') : DiskInv size s' where
  serial := by
    rw [hleaves.cleared]
    exact hserial
  data_torn p := by
    rw [hleaves.dataDisk_eq]
    rcases h.data_torn p with hzero | hwhole
    · exact .inl hzero
    · rcases hleaves.whole_eq (p := p) with hzero | hsame
      · exact .inl (hwhole.trans hzero)
      · exact .inr (hwhole.trans hsame.symm)
  index_torn i := by
    rw [hleaves.indexDisk_eq]
    rcases h.index_torn i with hzero | hwhole
    · exact .inl hzero
    · rcases hleaves.wholeIndex_eq (i := i) with hzero | hsame
      · exact .inl (hwhole.trans hzero)
      · exact .inr (hwhole.trans hsame.symm)
  data := by
    rw [hleaves.sOffset_eq]
    exact h.data.leaves hleaves
  index := by
    rw [hleaves.sOffset_eq]
    exact h.index.leaves hleaves

/-! ### Writing to disk -/

/-- A byte goes to disk, and `msync` waits for it no longer. -/
theorem OnDisk.byteOnDisk (h : OnDisk s d left) (p : Nat) :
    OnDisk (s.byteOnDisk p) d (left.filter fun q => q ≠ p) where
  le := h.le
  stored := h.stored
  disk q hq hleft := by
    show copy s.sgm.dataDisk s.sgm.buffer p 1 q = s.sgm.buffer q
    rw [copy_one]
    split
    · rfl
    · rename_i hne
      exact h.disk q hq fun hmem => hleft (List.mem_filter.mpr ⟨hmem, decide_eq_true hne⟩)

/-- An entry goes to disk, and `msync` waits for it no longer. -/
theorem IndexOnDisk.entryOnDisk (h : IndexOnDisk s n left) (i : Nat) :
    IndexOnDisk (s.entryOnDisk i) n (left.filter fun j => j ≠ i) where
  le := h.le
  stored := h.stored
  disk j hj hleft := by
    show copy s.sgm.indexDisk s.sgm.index i 1 j = s.sgm.index j
    rw [copy_one]
    split
    · rfl
    · rename_i hne
      exact h.disk j hj fun hmem => hleft (List.mem_filter.mpr ⟨hmem, decide_eq_true hne⟩)

/-- A byte goes to disk at any moment. -/
theorem DiskInv.byteOnDisk (h : DiskInv size s) (p : Nat) : DiskInv size (s.byteOnDisk p) where
  serial := h.serial.put ..
  data_torn q := by
    show copy s.sgm.dataDisk s.sgm.buffer p 1 q = 0 ∨ copy s.sgm.dataDisk s.sgm.buffer p 1 q =
      s.whole q
    rw [copy_one]
    split
    · exact h.serial.buffer_zero_or q
    · exact h.data_torn q
  index_torn := h.index_torn
  data := h.data.byteOnDisk p
  index := ⟨h.index.le, h.index.stored, h.index.disk⟩

/-- An entry goes to disk at any moment. -/
theorem DiskInv.entryOnDisk (h : DiskInv size s) (i : Nat) : DiskInv size (s.entryOnDisk i) where
  serial := h.serial.put ..
  data_torn := h.data_torn
  index_torn j := by
    show copy s.sgm.indexDisk s.sgm.index i 1 j = 0 ∨ copy s.sgm.indexDisk s.sgm.index i 1 j =
      s.wholeIndex j
    rw [copy_one]
    split
    · rcases h.serial.index_cases j with hwhole | ⟨hzero, -⟩
      · exact .inr hwhole
      · exact .inl hzero
    · exact h.index_torn j
  data := ⟨h.data.le, h.data.stored, h.data.disk⟩
  index := h.index.entryOnDisk i

/-- A sync under way when a byte goes to disk. -/
theorem SyncOk.byteOnDisk {pc : SyncPc} (h : SyncOk page s pc) (p : Nat) :
    SyncOk page (s.byteOnDisk p) (pc.wroteByte p) := by
  cases pc with
  | idle => exact h
  | dataOffset known => exact h
  | msyncData known wOffset syncSize left =>
    obtain ⟨hcaught, hknown, hstart, hs, hdisk, hsize⟩ := h
    exact ⟨hcaught, hknown, hstart, hs, hdisk.byteOnDisk p, hsize⟩
  | indexOffset known => exact h
  | msyncIndex known wIndex length left =>
    obtain ⟨hknown, hstart, hle, hs, hcaught, hdisk, hlength⟩ := h
    exact ⟨hknown, hstart, hle, hs, hcaught, ⟨hdisk.le, hdisk.stored, hdisk.disk⟩, hlength⟩

/-- A sync under way when an entry goes to disk. -/
theorem SyncOk.entryOnDisk {pc : SyncPc} (h : SyncOk page s pc) (i : Nat) :
    SyncOk page (s.entryOnDisk i) (pc.wroteEntry i) := by
  cases pc with
  | idle => exact h
  | dataOffset known => exact h
  | msyncData known wOffset syncSize left =>
    obtain ⟨hcaught, hknown, hstart, hs, hdisk, hsize⟩ := h
    exact ⟨hcaught, hknown, hstart, hs, ⟨hdisk.le, hdisk.stored, hdisk.disk⟩, hsize⟩
  | indexOffset known => exact h
  | msyncIndex known wIndex length left =>
    obtain ⟨hknown, hstart, hle, hs, hcaught, hdisk, hlength⟩ := h
    exact ⟨hknown, hstart, hle, hs, hcaught, hdisk.entryOnDisk i, hlength⟩

/-! ### Moving the synced offset -/

/-- The synced offset moves up to what is on disk. -/
theorem DiskInv.advance (h : DiskInv size s) (o : OffsetPair) (hdata : OnDisk s o.data [])
    (hindex : IndexOnDisk s o.index []) : DiskInv size (s.put { s.sgm with sOffset := o }) where
  serial := h.serial.put ..
  data_torn := h.data_torn
  index_torn := h.index_torn
  data := ⟨hdata.le, hdata.stored, hdata.disk⟩
  index := ⟨hindex.le, hindex.stored, hindex.disk⟩

/-- What is durable stays so when the synced offset moves up. -/
theorem Durable.advance (h : Durable s n) {o : OffsetPair} (hdata : s.sgm.sOffset.data ≤ o.data)
    (hindex : s.sgm.sOffset.index ≤ o.index) : Durable (s.put { s.sgm with sOffset := o }) n :=
  ⟨h.le, Nat.le_trans h.index hindex, Nat.le_trans h.data hdata⟩

/-- The messages are in front of the write offset. -/
theorem SerialInv.start_le {fresh : Segment} (h : SerialInv size fresh s) {n : Nat}
    (hn : n ≤ (payloads s.claims).length) :
    start frame (payloads s.claims) n ≤ s.sgm.wOffset.data := by
  have hle := start_mono (f := frame) (l := payloads s.claims) hn
  rw [start_length] at hle
  have hoffset : s.sgm.wOffset.data = (image Claim.bytes s.claims).length := by rw [h.offset]
  rw [hoffset, h.image_eq, List.length_append]
  exact Nat.le_trans hle (Nat.le_add_right ..)

/-- A segment has fewer messages than bytes. -/
theorem SerialInv.index_lt {fresh : Segment} (h : SerialInv size fresh s) (hsmall : size < 2 ^ 32) :
    s.sgm.wOffset.index < 2 ^ 32 := by
  have hcount : s.sgm.wOffset.index = (payloads s.claims).length := by rw [h.offset]
  have hfits := h.fits
  have hmul : 12 * (payloads s.claims).length ≤ (image frame (payloads s.claims)).length :=
    mul_length_le_image headerSize_le_frame _
  omega

/-- **What is below the synced data** is among the synced entries. -/
theorem CaughtUp.durable {fresh : Segment} (h : CaughtUp s n) (hserial : SerialInv size fresh s)
    {known : Nat} (hknown : known ≤ (payloads s.claims).length)
    (hstart : start frame (payloads s.claims) known ≤ s.sgm.sOffset.data) : known ≤ n := by
  rcases Nat.eq_zero_or_pos known with rfl | hpos
  · exact Nat.zero_le n
  · have hlt : known - 1 < (payloads s.claims).length := by omega
    obtain ⟨c, hc, hframe, hbase⟩ := hserial.claim_eq hlt
    have hsucc := start_succ (f := frame) hlt
    rw [Nat.sub_add_cancel hpos] at hsucc
    have hlength := headerSize_le_frame (payloads s.claims)[known - 1]
    have h12 : headerSize = 12 := rfl
    have hbelow := h c hc (by rw [hframe]; exact Option.some_ne_none _)
      (by rw [hbase]; show start _ _ _ < _; omega)
    rw [hbase] at hbelow
    have hbelow' : known - 1 < n := hbelow
    omega

end Disk

/-! ## The step lemma -/

section Step

variable {page : PageSize} {size : Nat} {s s' : SyncState}

/-- A thread that writes or reads makes a step. -/
theorem DurableInv.thread (h : DurableInv page size s) (hsmall : size < 2 ^ 31) {i : Nat × SegAct}
    (hok : readsSealed s.seg i = false) {seg : SegState} (hstep : segStep s.seg i = some seg) :
    DurableInv page size { s with seg := seg } := by
  have hleaves := h.disk.serial.leaves (by omega) hstep
  exact ⟨h.disk.leaves (h.disk.serial.step (by omega) hok hstep) hleaves,
    h.sync.leaves h.disk.data.le hleaves, fun r hr hrc => (h.synced r hr hrc).leaves hleaves⟩

/-- The thread that syncs returns. -/
theorem DurableInv.answer (h : DurableInv page size s)
    (hcaught : CaughtUp s.seg s.seg.sgm.sOffset.index) {known : Nat} {rc : Int}
    (hrc : 0 ≤ rc → Durable s.seg known) :
    DurableInv page size (s.answer known rc) where
  disk := h.disk
  sync := hcaught
  synced r hr := by
    rcases List.mem_append.mp hr with hr | hr
    · exact h.synced r hr
    · rw [List.mem_singleton.mp hr]
      exact hrc

/-- `sync_data` reads the write offset. -/
theorem DurableInv.dataOffset (h : DurableInv page size s) (hsmall : size < 2 ^ 31) {known : Nat}
    (hs : s.sync = .dataOffset known) (hquiet : s.seg.Quiet) {msync : Bool}
    (hstep : s.access page msync = some s') : DurableInv page size s' := by
  have hsync := h.sync
  rw [hs] at hsync
  obtain ⟨hcaught, hknown⟩ := hsync
  have hle := h.disk.data.le
  have hwritten := h.disk.serial.seals.written_le
  have hstart : syncStart page s.seg.sgm ≤ s.seg.sgm.sOffset.data := syncStart_le page (by omega)
  rw [access_dataOffset hs hle (by omega)] at hstep
  cases hstep
  refine ⟨h.disk, ⟨hcaught, hknown, h.disk.serial.start_le hknown, hle, ⟨Nat.le_refl _, ?_, ?_⟩,
    rfl⟩, h.synced⟩
  · exact fun c _ _ => hquiet.left_eq c
  · -- what is in front of the range is on disk
    intro p hp hnot
    refine h.disk.data.disk p ?_ List.not_mem_nil
    rw [List.mem_range'_1] at hnot
    omega

/-- `sync_index` reads the write offset. -/
theorem DurableInv.indexOffset (h : DurableInv page size s) (hsmall : size < 2 ^ 31) {known : Nat}
    (hs : s.sync = .indexOffset known) (hquiet : s.seg.Quiet) {msync : Bool}
    (hstep : s.access page msync = some s') : DurableInv page size s' := by
  have hsync := h.sync
  rw [hs] at hsync
  obtain ⟨hknown, hstart⟩ := hsync
  have hle := h.disk.index.le
  have hcount : s.seg.sgm.wOffset.index = (payloads s.seg.claims).length := by
    rw [h.disk.serial.offset]
  have hwIndex := h.disk.serial.index_lt (by omega)
  have hfirst : syncStartIndex page s.seg.sgm ≤ s.seg.sgm.sOffset.index :=
    syncStartIndex_le page (by omega)
  rw [access_indexOffset hs hle hwIndex] at hstep
  cases hstep
  refine ⟨h.disk, ⟨hknown, hstart, Nat.le_trans hknown (Nat.le_of_eq hcount.symm), hle,
    fun c hc hframe _ => ?_, ⟨Nat.le_refl _, fun c _ _ _ => hquiet.left_eq c, fun i hi hnot => ?_⟩,
      rfl⟩, h.synced⟩
  · have hnext := (h.disk.serial.claims.le c hc).2
    rw [Claim.next_of_frame hframe] at hnext
    exact hnext
  · refine h.disk.index.disk i ?_ List.not_mem_nil
    rw [List.mem_range'_1] at hnot
    omega

/-- `msync` in `sync_data` returns. -/
theorem DurableInv.msyncData (h : DurableInv page size s) (hsmall : size < 2 ^ 31)
    {known wOffset syncSize : Nat} {left : List Nat}
    (hs : s.sync = .msyncData known wOffset syncSize left) {msync : Bool}
    (hstep : s.access page msync = some s') : DurableInv page size s' := by
  have hsync := h.sync
  rw [hs] at hsync
  obtain ⟨hcaught, hknown, hstart, hle, hdisk, hsize⟩ := hsync
  simp only [SyncState.access, hs] at hstep
  split at hstep
  · cases hstep
    exact h.answer hcaught fun hrc => absurd hrc (by decide)
  split at hstep
  · cases hstep
  rename_i hleft
  obtain rfl := not_not.mp hleft
  have hwritten := h.disk.serial.seals.written_le
  have hbound := hdisk.le
  have hfirst : syncStart page s.seg.sgm ≤ s.seg.sgm.sOffset.data := syncStart_le page (by omega)
  have hadvance :
    DiskInv size (s.seg.put { s.seg.sgm with sOffset := ⟨s.seg.sgm.sOffset.index, wOffset⟩ }) :=
    h.disk.advance ⟨s.seg.sgm.sOffset.index, wOffset⟩ hdisk h.disk.index
  have hsynced : ∀ r ∈ s.synced, 0 ≤ r.rc →
      Durable (s.seg.put { s.seg.sgm with sOffset := ⟨s.seg.sgm.sOffset.index, wOffset⟩ })
        r.known :=
    fun r hr hrc => (h.synced r hr hrc).advance hle (Nat.le_refl _)
  rw [toInt_of_lt (by omega)] at hstep
  split at hstep
  · -- nothing was new
    rename_i hzero
    have hsame : s.seg.sgm.sOffset.data = wOffset := by omega
    cases hstep
    have hcaught' :
      CaughtUp (s.seg.put { s.seg.sgm with sOffset := ⟨s.seg.sgm.sOffset.index, wOffset⟩ })
        s.seg.sgm.sOffset.index := by
      intro c hc hframe hbase
      exact hcaught c hc hframe (by rw [hsame]; exact hbase)
    refine ⟨hadvance, hcaught', fun r hr hrc => ?_⟩
    rcases List.mem_append.mp hr with hr | hr
    · exact hsynced r hr hrc
    · rw [List.mem_singleton.mp hr]
      exact ⟨hknown, hcaught.durable h.disk.serial hknown (by rw [hsame]; exact hstart), hstart⟩
  · cases hstep
    exact ⟨hadvance, ⟨hknown, hstart⟩, hsynced⟩

/-- `msync` in `sync_index` returns. -/
theorem DurableInv.msyncIndex (h : DurableInv page size s) {known wIndex length : Nat}
    {left : List Nat} (hs : s.sync = .msyncIndex known wIndex length left)
    (hstep : s.access page true = some s') :
    DurableInv page size s' := by
  have hsync := h.sync
  rw [hs] at hsync
  obtain ⟨hknown, hstart, hcount, hle, hcaught, hdisk, hlength⟩ := hsync
  simp only [SyncState.access, hs, Bool.true_eq_false, if_false] at hstep
  split at hstep
  · cases hstep
  rename_i hleft
  obtain rfl := not_not.mp hleft
  cases hstep
  refine ⟨h.disk.advance ⟨wIndex, s.seg.sgm.sOffset.data⟩ h.disk.data hdisk, hcaught,
    fun r hr hrc => ?_⟩
  rcases List.mem_append.mp hr with hr | hr
  · exact (h.synced r hr hrc).advance (Nat.le_refl _) hle
  · rw [List.mem_singleton.mp hr]
    exact ⟨hknown, hcount, hstart⟩

/-- **The step lemma.** -/
theorem DurableInv.step (h : DurableInv page size s) (hsmall : size < 2 ^ 31) {act : SyncAct}
    (hok : Orderly s act) (hstep : syncStep page s act = some s') : DurableInv page size s' := by
  cases act with
  | thread i =>
    obtain ⟨seg, hseg, rfl⟩ := Option.map_eq_some_iff.mp hstep
    exact h.thread hsmall hok hseg
  | sync =>
    cases hs : s.sync with
    | idle =>
      rw [syncStep, hs] at hstep
      cases hstep
      have hsync := h.sync
      rw [hs] at hsync
      exact ⟨h.disk, ⟨hsync, Nat.le_refl _⟩, h.synced⟩
    | dataOffset _ | msyncData _ _ _ _ | indexOffset _ | msyncIndex _ _ _ _ =>
      rw [syncStep, hs] at hstep
      cases hstep
  | access msync =>
    rw [Orderly] at hok
    cases hs : s.sync with
    | idle =>
      simp only [syncStep, SyncState.access, hs] at hstep
      cases hstep
    | dataOffset known =>
      rw [hs] at hok
      exact h.dataOffset hsmall hs hok hstep
    | msyncData known wOffset syncSize left => exact h.msyncData hsmall hs hstep
    | indexOffset known =>
      rw [hs] at hok
      exact h.indexOffset hsmall hs hok hstep
    | msyncIndex known wIndex length left =>
      rw [hs] at hok
      obtain rfl : msync = true := hok
      exact h.msyncIndex hs hstep
  | writeByte p =>
    cases hstep
    exact ⟨h.disk.byteOnDisk p, h.sync.byteOnDisk p, fun r hr hrc =>
      have hdurable := h.synced r hr hrc
      ⟨hdurable.le, hdurable.index, hdurable.data⟩⟩
  | writeEntry i =>
    cases hstep
    exact ⟨h.disk.entryOnDisk i, h.sync.entryOnDisk i, fun r hr hrc =>
      have hdurable := h.synced r hr hrc
      ⟨hdurable.le, hdurable.index, hdurable.data⟩⟩

/-- A new segment. -/
theorem DurableInv.init (n : Nat) {base flags : Nat} (h12 : headerSize ≤ size) :
    DurableInv page size (syncInit (Segment.fresh base size flags) n) where
  disk := {
    serial := .init n h12
    data_torn := fun _ => .inl rfl
    index_torn := fun _ => .inl rfl
    data := ⟨Nat.le_refl _, fun _ hc => absurd hc List.not_mem_nil,
      fun p hp => absurd hp (Nat.not_lt_zero p)⟩
    index := ⟨Nat.le_refl _, fun _ hc => absurd hc List.not_mem_nil,
      fun i hi => absurd hi (Nat.not_lt_zero i)⟩ }
  sync := fun _ hc => absurd hc List.not_mem_nil
  synced := fun _ hr => absurd hr List.not_mem_nil

end Step

/-! ## The crash -/

/-- The session that a crash looks like: it synced the first `n` messages and wrote the others. -/
def SegState.session (s : SegState) (n : Nat) : Session where
  sgm := { s.sgm with
    buffer := s.whole
    index := s.wholeIndex
    sOffset := ⟨n, start frame (payloads s.claims) n⟩
    dataDisk := fun p => if p < start frame (payloads s.claims) n then s.whole p else 0
    indexDisk := fun i => if i < n then s.wholeIndex i else 0 }
  written := payloads s.claims
  synced := (payloads s.claims).take n

section Crash

variable {size : Nat} {s : SegState} {n : Nat}

/-- The write offset counts the accepted payloads and their bytes. -/
theorem DiskInv.wOffset_eq (h : DiskInv size s) : s.sgm.wOffset.index = (payloads s.claims).length ∧
    s.sgm.wOffset.data =
      (image frame (payloads s.claims)).length + (if s.sealed then eosFrame else []).length := by
  rw [h.serial.offset, h.serial.image_eq, List.length_append]
  exact ⟨rfl, rfl⟩

/-- Seen as a session of one writer, the disk holds what is synced. -/
theorem DiskInv.session_inStep (h : DiskInv size s) (hn : n ≤ (payloads s.claims).length) :
    InStep (s.session n).sgm where
  data_le := h.serial.start_le hn
  index_le := by
    rw [← h.wOffset_eq.1] at hn
    exact hn
  data_disk := fun _ => rfl
  index_disk := fun _ => rfl
  caught_up heq := by
    have hall : start frame (payloads s.claims) n = s.sgm.wOffset.data := heq
    show n = s.sgm.wOffset.index
    rw [h.wOffset_eq.1]
    by_contra hne
    -- a message that is not synced is behind those that are
    have hlt := Nat.lt_of_le_of_ne hn hne
    have hbehind := start_add_le_image (f := frame) hlt
    have hframe := headerSize_le_frame (payloads s.claims)[n]
    have h12 : headerSize = 12 := rfl
    rw [h.wOffset_eq.2] at hall
    omega

/-- The crash of a segment with many writers is the crash of a session of one. -/
theorem DiskInv.session_inv (h : DiskInv size s) (hsmall : size < 2 ^ 31)
    (hn : n ≤ (payloads s.claims).length) :
    SessionInv (s.session n) (if s.sealed then eosFrame else []) where
  holds := {
    buffer := by
      show s.whole = padded 0 (image frame (payloads s.claims) ++ _)
      rw [← h.serial.image_eq]
      rfl
    index := rfl
    count := h.wOffset_eq.1
    le_written := Nat.le_trans (Nat.le_add_right ..) (Nat.le_of_eq h.wOffset_eq.2.symm)
    written_le := Nat.le_of_eq h.wOffset_eq.2
    tail_eq := by
      split
      · exact .inr rfl
      · exact .inl rfl
    fits := Nat.le_trans h.serial.fits (Nat.le_of_eq h.serial.seals.size_eq.symm)
    small := Nat.lt_of_le_of_lt (Nat.le_of_eq h.serial.seals.size_eq) (by omega) }
  written_eq := h.wOffset_eq.2
  inStep := h.session_inStep hn
  synced_prefix := List.take_prefix ..
  synced_index := by
    show ((payloads s.claims).take n).length ≤ n
    rw [List.length_take]
    exact Nat.min_le_left ..
  synced_data := Nat.le_refl _
  size_lt := Nat.lt_of_le_of_lt (Nat.le_of_eq h.serial.seals.size_eq) hsmall

/-- **What is on disk** is what a crash of that session leaves. -/
theorem DiskInv.crashed (h : DiskInv size s) (hdurable : Durable s n) :
    CrashImage (s.session n).sgm s.sgm.dataDisk s.sgm.indexDisk where
  data p _ := by
    show s.sgm.dataDisk p = s.whole p ∨
      s.sgm.dataDisk p = if p < start frame (payloads s.claims) n then s.whole p else 0
    by_cases hp : p < start frame (payloads s.claims) n
    · have hsynced := Nat.lt_of_lt_of_le hp hdurable.data
      left
      rw [h.data.disk p hsynced List.not_mem_nil]
      exact h.serial.buffer_eq_whole h.data.stored h.data.le hsynced
    · rw [if_neg hp]
      exact (h.data_torn p).symm
  index i _ := by
    show s.sgm.indexDisk i = s.wholeIndex i ∨
      s.sgm.indexDisk i = if i < n then s.wholeIndex i else 0
    by_cases hi : i < n
    · have hsynced := Nat.lt_of_lt_of_le hi hdurable.index
      left
      rw [h.index.disk i hsynced List.not_mem_nil]
      rcases h.serial.index_cases i with hwhole | ⟨-, hbehind | ⟨c, hc, hframe, rfl, hleft⟩⟩
      · exact hwhole
      · exact absurd (Nat.lt_of_lt_of_le hi hdurable.le) (Nat.not_lt.mpr hbehind)
      · exact absurd (h.index.stored c hc hframe hsynced) hleft
    · rw [if_neg hi]
      exact (h.index_torn i).symm

end Crash

section Recovery

variable {s : Session} {tail : List UInt8} {data : Nat → UInt8} {index : Nat → Nat}

/-- **What a crash of a session leaves is recovered**: the segment opens, the synced messages are
    read, and later writes store behind them. -/
theorem CrashImage.recovers {page : PageSize} (himg : CrashImage s.sgm data index)
    (h : SessionInv s tail) (hcap : s.written.length < indexCapacity s.sgm.size)
    (h0 : 0 < s.sgm.size) (hmod : s.sgm.size % page.bytes = 0) (baseOffset flags : Nat) :
    ∃ sgm', segmentOpen page .ok (segmentFiles s.sgm.size data index) baseOffset s.sgm.size flags =
        (0, some sgm', segmentFiles s.sgm.size data index) ∧
      (∀ i (hi : i < s.synced.length), Reads sgm' i s.synced[i]) ∧
      ∀ bufs, SameBelow s.synced.length (image frame s.synced).length sgm'
        (segmentWrites sgm' bufs) := by
  obtain ⟨i, hi, hfree, hused⟩ := himg.exists_free h hcap (page.le_of_mod h0 hmod)
  by_cases hsynced : s.synced = []
  · obtain ⟨w, hw⟩ : ∃ w, findWOffsetPair data index (calculateIndexSize s.sgm.size) = some w := by
      rcases Nat.eq_zero_or_pos i with rfl | hpos
      · exact ⟨_, findWOffsetPair_empty (Nat.zero_lt_of_lt hi) hfree⟩
      · exact ⟨_, findWOffsetPair_eq hpos hi hused hfree.1⟩
    rw [hsynced]
    exact ⟨_, segmentOpen_files _ _ h0 hmod hw, fun i hi => absurd hi (Nat.not_lt_zero i),
      fun bufs => ⟨fun p hp => absurd hp (Nat.not_lt_zero p),
        fun k hk => absurd hk (Nat.not_lt_zero k)⟩⟩
  · obtain ⟨w, hw, hbehind⟩ := himg.recovered_behind h hcap hsynced hi hfree hused
    have hb := hbehind baseOffset flags
    refine ⟨_, segmentOpen_files _ _ h0 hmod hw, fun i hi => ?_, fun bufs => hb.segmentWrites bufs⟩
    have hend := start_add_le_image (f := frame) hi
    have hframe := headerSize_le_frame s.synced[i]
    have h12 : headerSize = 12 := rfl
    have hdata : (image frame s.synced).length ≤ w.data := hb.data_ge
    have hle := Nat.le_trans h.synced_data (Nat.le_trans h.inStep.data_le h.holds.written_le_size)
    have hsmall := h.size_lt
    refine reads_of_stored (himg.stored h hcap) hi (Nat.lt_of_lt_of_le hi hb.index_ge) ?_ (by omega)
    rw [readBoundary]
    show start frame s.synced i < if flags &&& sgmRdcmt = sgmRdcmt then w.data else w.data
    rw [ite_self]
    omega

end Recovery

/-- **What is on disk is recovered**, whatever is known of it. -/
theorem DiskInv.recovers {page : PageSize} {size n : Nat} {s : SegState} (h : DiskInv size s)
    (hdurable : Durable s n) (h0 : 0 < size) (hmod : size % page.bytes = 0) (hsmall : size < 2 ^ 31)
    (hcap : (payloads s.claims).length < indexCapacity size) (baseOffset flags : Nat) :
    ∃ sgm', segmentOpen page .ok (segmentFiles size s.sgm.dataDisk s.sgm.indexDisk) baseOffset size
      flags =
        (0, some sgm', segmentFiles size s.sgm.dataDisk s.sgm.indexDisk) ∧
      (∀ i (hi : i < (payloads s.claims).length), i < n → Reads sgm' i (payloads s.claims)[i]) ∧
      ∀ bufs, SameBelow n (start frame (payloads s.claims) n) sgm' (segmentWrites sgm' bufs) := by
  have hinv := h.session_inv hsmall hdurable.le
  have himg := h.crashed hdurable
  obtain rfl := h.serial.seals.size_eq
  have hlength : (s.session n).synced.length = n := List.length_take_of_le hdurable.le
  obtain ⟨sgm', hopens, hreads, hbelow⟩ := himg.recovers hinv hcap h0 hmod baseOffset flags
  refine ⟨sgm', hopens, fun i hi hsynced => ?_, fun bufs => ?_⟩
  · have hread := hreads i (by rwa [hlength])
    rw [show (s.session n).synced[i] = (payloads s.claims)[i] from List.getElem_take] at hread
    exact hread
  · have hsame := hbelow bufs
    rw [hlength] at hsame
    exact hsame

/-- **A sync while others write**: in every interleaving of any number of threads that write and
    read with one that syncs, and with what the system writes to disk by itself, in which no thread
    reads the write offset for a claim after the seal and `segment_sync` reads it only while no
    claim is in flight, if the machine crashes at any time, the segment opens again.  What had been
    accepted before the call of a sync that succeeded is read, and later writes leave its bytes and
    entries alone. -/
theorem synced_survive {page : PageSize} {base size flags : Nat} {sgm : Segment}
    {files : SegmentFiles} (hopen : segmentOpen page .ok ⟨none, none⟩ base size flags =
      (0, some sgm, files)) (hsmall : size < 2 ^ 31)
    {n : Nat} {is : List SyncAct} {s : SyncState}
    (hrun : run (syncStep page) (syncInit sgm n) is = some s)
    (horderly : Along (syncStep page) Orderly (syncInit sgm n) is)
    (hcap : (payloads s.seg.claims).length < indexCapacity size) (flags' : Nat) :
    ∃ sgm', segmentOpen page .ok (segmentFiles size s.seg.sgm.dataDisk s.seg.sgm.indexDisk) base
      size flags' =
        (0, some sgm', segmentFiles size s.seg.sgm.dataDisk s.seg.sgm.indexDisk) ∧
      ∀ r ∈ s.synced, 0 ≤ r.rc → r.known ≤ (payloads s.seg.claims).length ∧
        (∀ i (hi : i < (payloads s.seg.claims).length), i < r.known →
          Reads sgm' i (payloads s.seg.claims)[i]) ∧
        ∀ bufs, SameBelow r.known (start frame (payloads s.seg.claims) r.known) sgm'
          (segmentWrites sgm' bufs) := by
  obtain ⟨h0, hmod, rfl, -⟩ := segmentOpen_new_size hopen
  have h4096 := page.le_of_mod h0 hmod
  have h12 : headerSize = 12 := rfl
  have hinv : DurableInv page size s := by
    refine Lib.run_invariant (I := DurableInv page size) ?_ is _ _ horderly (.init n (by omega))
      hrun
    intro s act s' hok hinv hstep
    exact hinv.step hsmall hok hstep
  have hnone : Durable s.seg 0 := ⟨Nat.zero_le _, Nat.zero_le _, Nat.zero_le _⟩
  obtain ⟨sgm', hopens, -⟩ := hinv.disk.recovers hnone h0 hmod hsmall hcap base flags'
  refine ⟨sgm', hopens, fun r hr hrc => ?_⟩
  have hdurable := hinv.synced r hr hrc
  obtain ⟨sgm'', hopens', hrecovered⟩ := hinv.disk.recovers hdurable h0 hmod hsmall hcap base flags'
  -- it is the same segment, opened on the same files
  obtain rfl : sgm' = sgm'' := by
    rw [hopens] at hopens'
    exact Option.some.inj (Prod.mk.inj (Prod.mk.inj hopens').2).1
  exact ⟨hdurable.le, hrecovered⟩

/-- A message is synced while another one is written, and a third one is half written at the
    crash. -/
def syncWhileWriting : List SyncAct :=
  .thread (0, .write (oneByte 0x61)) :: List.replicate 12 (.thread (0, .access)) ++
    .sync :: .access true :: .thread (1, .write (oneByte 0x62)) ::
      List.replicate 7 (.thread (1, .access)) ++
    (List.range 13).map .writeByte ++ List.replicate 6 (.thread (1, .access)) ++
    [.access true, .access true, .writeEntry 0, .writeEntry 1, .access true] ++
    .thread (0, .write (oneByte 0x63)) :: List.replicate 8 (.thread (0, .access)) ++
    [.writeByte 13, .writeByte 38, .writeEntry 2]

/-- Two messages are synced while a third one is being written. -/
theorem synced_survive_of_three :
    ∃ s, run (syncStep page4096) (syncInit (Segment.fresh 0 4096 0) 2) syncWhileWriting = some s ∧
      s.synced = [⟨1, 2⟩] ∧ payloads s.seg.claims = [oneByte 0x61, oneByte 0x62, oneByte 0x63] ∧
      ∃ sgm', segmentOpen page4096 .ok (segmentFiles 4096 s.seg.sgm.dataDisk s.seg.sgm.indexDisk) 0
        4096 0 =
          (0, some sgm', segmentFiles 4096 s.seg.sgm.dataDisk s.seg.sgm.indexDisk) ∧
        Reads sgm' 0 (oneByte 0x61) := by
  have hruns : (run (syncStep page4096) (syncInit (Segment.fresh 0 4096 0) 2) syncWhileWriting).map
      (fun s => (s.synced, payloads s.seg.claims)) =
        some ([⟨1, 2⟩], [oneByte 0x61, oneByte 0x62, oneByte 0x63]) := by decide +kernel
  obtain ⟨s, hrun, hs⟩ := Option.map_eq_some_iff.mp hruns
  obtain ⟨hsynced, hpayloads⟩ := Prod.mk.inj hs
  obtain ⟨sgm', hopens, hread⟩ :=
    synced_survive (segmentOpen_new 0 _ (by decide) (by decide)) (by decide) hrun
    (by decide +kernel) (by rw [hpayloads]; decide) 0
  obtain ⟨-, hreads, -⟩ :=
    hread ⟨1, 2⟩ (by rw [hsynced]; exact List.mem_singleton_self _) (by decide)
  have hfirst := hreads 0 (by rw [hpayloads]; decide) (by decide)
  simp only [hpayloads, List.getElem_cons_zero] at hfirst
  exact ⟨s, hrun, hsynced, hpayloads, sgm', hopens, hfirst⟩

end Mqlog
