/-
  What concurrent readers of a segment are given.

  Readers take no lock.  What makes `segment_read` safe is the order of the accesses: a frame is
  claimed before it is stored, its flags are the last of its bytes to be stored, and its index entry
  is stored after them.  `ClaimsInv` says how far each claim has got: the claims lie one behind the
  other up to the write offset, the bytes of each are what the stores made so far leave in fresh
  memory, and its index entry is set exactly when no store is left.  An entry that is not zero, or
  flags that are ready, then tell a reader that the frame is whole (`Shown`), and a whole frame is
  never written to again.

    1. `ClaimsInv` is the invariant of the writers.  Three kinds of steps touch it, with a lemma
       each:  a thread moves on (`ClaimsInv.move`), a claim succeeds (`ClaimsInv.claimed`), a store
       is made (`ClaimsInv.stored`).  The crux is the last one: a store lies within its claim, so it
       leaves the bytes and the entries of all other claims alone (`ClaimsInv.apart`), and takes its
       own claim one store further.
    2. `Later` is what the readers rely on between two of their accesses: the write offset grows,
       claims stay, and get on.  What is shown stays shown (`SegState.Shown.later`).
    3. `ReaderOk` is what a reader knows at each access: that its boundary is not above the write
       offset, that the number is below the number of entries, then that the frame is shown.  The
       entry of the first message is zero, stored or not, so there the flags decide
       (`ClaimsInv.shown_of_flags`).
    4. `PublishInv` puts them together, with what was returned (`ReturnedOk`); `PublishInv.step` is
       the step lemma.

  The counters are 32 bits wide, and a claim computes its new write offset modulo `2 ^ 32`.  The
  property is about runs in which no claim wraps around (`wrapsClaim`).  In a segment smaller than
  `2 ^ 32` in which nobody claims behind the seal none does, which is shown with the claims in order
  (`SerialInv.wrapsClaim_eq`).
-/
import Mathlib.Data.List.Pairwise
import Mqlog.SegmentOpen
import Mqlog.SegmentStores

namespace Mqlog

open Lib (run Along)
open Lib.Mem

/-! ## How far a claim has got -/

/-- The index behind a claim. -/
def Claim.next (c : Claim) : Nat :=
  match c.frame with
  | some _ => c.base.index + 1
  | none => c.base.index

/-- A claim without a frame takes no slot of the index. -/
theorem Claim.next_of_none {c : Claim} (h : c.frame = none) : c.next = c.base.index := by
  rw [Claim.next, h]

/-- A claim with a frame takes one slot of the index. -/
theorem Claim.next_of_frame {c : Claim} (h : c.frame ≠ none) : c.next = c.base.index + 1 := by
  rw [Claim.next]
  split
  · rfl
  · contradiction

theorem Claim.base_le_next (c : Claim) : c.base.index ≤ c.next := by
  by_cases hframe : c.frame = none
  · rw [Claim.next_of_none hframe]
  · rw [Claim.next_of_frame hframe]
    exact Nat.le_succ _

/-- The stores of a claim that are still to be made. -/
def SegState.left (s : SegState) (c : Claim) : List Store :=
  match s.threads[c.thread]? with
  | some (.storing c' rest) => if c' = c then rest else []
  | _ => []

/-- One claim is in front of the other. -/
def Claim.Before (c c' : Claim) : Prop := c.stop ≤ c'.base.data ∧ c.next ≤ c'.base.index

theorem Claim.base_lt_stop (c : Claim) : c.base.data < c.stop := by
  have h12 : headerSize = 12 := rfl
  obtain ⟨k, base, frame⟩ := c
  cases frame with
  | none =>
    show base.data < base.data + headerSize
    omega
  | some buf =>
    show base.data < base.data + (headerSize + buf.1.length)
    omega

theorem Claim.stores_ne_nil (c : Claim) : c.stores ≠ [] := by
  obtain ⟨k, base, frame⟩ := c
  cases frame with
  | none => exact List.cons_ne_nil _ _
  | some buf => exact List.append_ne_nil_of_right_ne_nil _ (List.cons_ne_nil _ _)

/-- The write offset, the claims up to it, and how far each of them has got. -/
structure ClaimsInv (s : SegState) : Prop where
  small : s.sgm.wOffset.data < 2 ^ 32
  le : ∀ c ∈ s.claims, c.stop ≤ s.sgm.wOffset.data ∧ c.next ≤ s.sgm.wOffset.index
  before : s.claims.Pairwise Claim.Before
  first : 0 < s.sgm.wOffset.data → ∃ c ∈ s.claims, c.base = ⟨0, 0⟩
  covers : ∀ i, i < s.sgm.wOffset.index → ∃ c ∈ s.claims, c.frame ≠ none ∧ c.base.index = i
  clear : ∀ p, s.sgm.wOffset.data ≤ p → s.sgm.buffer p = 0
  clear_index : ∀ i, s.sgm.wOffset.index ≤ i → s.sgm.index i = 0
  storing : ∀ (k : Nat) (c : Claim) (rest : List Store), s.threads[k]? = some (.storing c rest) →
    c ∈ s.claims ∧ c.thread = k
  progress : ∀ c ∈ s.claims, ∃ done, done ++ s.left c = c.stores ∧
    ∀ p, c.base.data ≤ p → p < c.stop → s.sgm.buffer p = written (fun _ => 0) done p
  entry : ∀ c ∈ s.claims, c.frame ≠ none →
    s.sgm.index c.base.index = if s.left c = [] then c.base.data else 0

/-- A frame whose bytes are all stored is at `hdr` and has the number `i`. -/
def SegState.Shown (s : SegState) (i hdr : Nat) (buf : Buf) : Prop :=
  ∃ c ∈ s.claims, c.frame = some buf ∧ c.base = ⟨i, hdr⟩ ∧ (s.left c).length ≤ 1

section Left

variable {s s' : SegState} {k : Nat} {c : Claim}

/-- The stores of other threads' claims do not depend on where a thread is. -/
theorem left_of_ne {pc : SegPc} (hthreads : s'.threads = s.threads.set k pc) (hk : c.thread ≠ k) :
    s'.left c = s.left c := by
  rw [SegState.left, SegState.left, hthreads, List.getElem?_set_ne (Ne.symm hk)]

/-- A thread that is not storing has stored its claims. -/
theorem left_eq_nil (hc : c.thread = k) (hwas : ∀ rest, s.threads[k]? ≠ some (.storing c rest)) :
    s.left c = [] := by
  rw [SegState.left, hc]
  split
  · rename_i c' rest hk
    by_cases heq : c' = c
    · rw [heq] at hk
      exact absurd hk (hwas rest)
    · exact if_neg heq
  · rfl

/-- What is left to store of a claim is what its thread has in hand. -/
theorem left_storing {rest : List Store} (hk : s.threads[c.thread]? = some (.storing c rest)) :
    s.left c = rest := by
  rw [SegState.left, hk]
  exact if_pos rfl

/-- A thread that goes on without a claim: nothing changes. -/
theorem left_of_moves {pc : SegPc} (hwas : ∀ c rest, s.threads[k]? = some (.storing c rest) →
      rest = [])
    (hthreads : s'.threads = s.threads.set k pc) (hpc : ∀ c rest, pc ≠ .storing c rest)
    (c : Claim) :
    s'.left c = s.left c := by
  by_cases hck : c.thread = k
  · have hold : s.left c = [] := by
      rw [SegState.left, hck]
      split
      · rename_i c' rest hk
        rw [hwas c' rest hk, ite_self]
      · rfl
    rw [hold]
    refine left_eq_nil hck fun rest hrest => ?_
    rw [hthreads, List.getElem?_set] at hrest
    split at hrest
    · split at hrest
      · exact hpc c rest (Option.some.inj hrest)
      · cases hrest
    · contradiction
  · exact left_of_ne hthreads hck

theorem left_stored_self {st : Store} {rest : List Store}
    (hk : s.threads[k]? = some (.storing c (st :: rest))) (hthread : c.thread = k) :
    (s.stored k c st rest).left c = rest := by
  have hlt : k < s.threads.length := (List.getElem?_eq_some_iff.mp hk).1
  refine left_storing ?_
  show (s.threads.set k _)[c.thread]? = _
  rw [hthread, List.getElem?_set_self hlt]

/-- A store of one claim leaves the others as they were. -/
theorem left_stored {st : Store} {rest : List Store} {c' : Claim}
    (hk : s.threads[k]? = some (.storing c (st :: rest))) (hne : c' ≠ c) :
    (s.stored k c st rest).left c' = s.left c' := by
  have hlt : k < s.threads.length := (List.getElem?_eq_some_iff.mp hk).1
  by_cases hck : c'.thread = k
  · have hnil : s.left c' = [] := by
      refine left_eq_nil hck fun rest' hrest => ?_
      rw [hk] at hrest
      exact hne (SegPc.storing.inj (Option.some.inj hrest)).1.symm
    rw [hnil]
    refine left_eq_nil hck fun rest' hrest => ?_
    have hrest' : (s.threads.set k (.storing c rest))[k]? = some (.storing c' rest') := hrest
    rw [List.getElem?_set_self hlt] at hrest'
    exact hne (SegPc.storing.inj (Option.some.inj hrest')).1.symm
  · exact left_of_ne rfl hck

end Left

namespace ClaimsInv

variable {s s' : SegState} {k : Nat}

/-- A thread that is not storing moves on. -/
theorem move (h : ClaimsInv s) {pc : SegPc}
    (hwas : ∀ c rest, s.threads[k]? = some (.storing c rest) → rest = [])
    (hthreads : s'.threads = s.threads.set k pc) (hpc : ∀ c rest, pc ≠ .storing c rest)
    (hsgm : s'.sgm = s.sgm) (hclaims : s'.claims = s.claims) : ClaimsInv s' := by
  have hleft := left_of_moves hwas hthreads hpc
  refine ⟨by rw [hsgm]; exact h.small, by rw [hsgm, hclaims]; exact h.le, by rw [hclaims]; exact h.before,
    by rw [hsgm, hclaims]; exact h.first, by rw [hsgm, hclaims]; exact h.covers,
    by rw [hsgm]; exact h.clear, by rw [hsgm]; exact h.clear_index, ?_, ?_, ?_⟩
  · intro j c rest hj
    rw [hthreads, List.getElem?_set] at hj
    split at hj
    · split at hj
      · exact absurd (Option.some.inj hj) (hpc c rest)
      · cases hj
    · rw [hclaims]
      exact h.storing j c rest hj
  · rw [hclaims, hsgm]
    intro c hc
    rw [hleft c]
    exact h.progress c hc
  · rw [hclaims, hsgm]
    intro c hc
    rw [hleft c]
    exact h.entry c hc

/-- A thread is put to storing one of the claims. -/
theorem storing_set (h : ClaimsInv s) {c : Claim} {rest : List Store} (hlt : k < s.threads.length)
    (hthreads : s'.threads = s.threads.set k (.storing c rest)) (hc : c ∈ s'.claims)
    (hthread : c.thread = k) (hsub : s.claims ⊆ s'.claims) :
    ∀ (j : Nat) (c' : Claim) (rest' : List Store), s'.threads[j]? = some (.storing c' rest') →
      c' ∈ s'.claims ∧ c'.thread = j := by
  intro j c' rest' hj
  rw [hthreads] at hj
  by_cases hjk : k = j
  · subst hjk
    rw [List.getElem?_set_self hlt] at hj
    obtain ⟨rfl, -⟩ := SegPc.storing.inj (Option.some.inj hj)
    exact ⟨hc, hthread⟩
  · rw [List.getElem?_set_ne hjk] at hj
    obtain ⟨hmem, hj⟩ := h.storing j c' rest' hj
    exact ⟨hsub hmem, hj⟩

/-- A new claim is behind all others, which are left as they are. -/
theorem left_claimed (h : ClaimsInv s) {buf : Buf} {curr : OffsetPair} {c c' : Claim}
    (hk : s.threads[k]? = some (.claiming buf curr)) (hbase : c.base = s.sgm.wOffset)
    (hc' : c' ∈ s.claims) : (s.claimed k c).left c' = s.left c' := by
  have hlt : k < s.threads.length := (List.getElem?_eq_some_iff.mp hk).1
  by_cases hck : c'.thread = k
  · have hnil : s.left c' = [] := by
      refine left_eq_nil hck fun rest hrest => ?_
      rw [hk] at hrest
      cases hrest
    rw [hnil]
    refine left_eq_nil hck fun rest hrest => ?_
    have hrest' : (s.threads.set k (.storing c c.stores))[k]? = some (.storing c' rest) := hrest
    rw [List.getElem?_set_self hlt] at hrest'
    obtain ⟨rfl, -⟩ := SegPc.storing.inj (Option.some.inj hrest')
    have hle := (h.le c hc').1
    have hstart := c.base_lt_stop
    rw [hbase] at hstart
    omega
  · exact left_of_ne rfl hck

/-- Nothing is written before the first claim. -/
theorem wOffset_eq_zero (h : ClaimsInv s) (hzero : s.sgm.wOffset.data = 0) :
    s.sgm.wOffset = ⟨0, 0⟩ := by
  have hnone : s.sgm.wOffset.index = 0 := by
    by_contra hne
    obtain ⟨c, hc, -, -⟩ := h.covers 0 (by omega)
    have hle := (h.le c hc).1
    have hpos := c.base_lt_stop
    omega
  rcases hw : s.sgm.wOffset with ⟨i, d⟩
  rw [hw] at hzero hnone
  rw [show i = 0 from hnone, show d = 0 from hzero]

/-- A claim at the write offset is for the next index entry, if it is for a frame. -/
theorem covers_claimed (h : ClaimsInv s) {c : Claim} (hbase : c.base = s.sgm.wOffset) {i : Nat}
    (hi : i < c.next) : ∃ c' ∈ s.claims ++ [c], c'.frame ≠ none ∧ c'.base.index = i := by
  by_cases hlast : i < s.sgm.wOffset.index
  · obtain ⟨c', hc', hrest⟩ := h.covers i hlast
    exact ⟨c', List.mem_append_left _ hc', hrest⟩
  · have hframe : c.frame ≠ none := by
      intro hnone
      rw [Claim.next_of_none hnone, hbase] at hi
      exact hlast hi
    rw [Claim.next_of_frame hframe] at hi
    rw [← hbase] at hlast
    exact ⟨c, List.mem_append_right _ (List.mem_singleton_self c), hframe, by omega⟩

/-- **A claim that succeeds** starts at the write offset, in fresh memory. -/
theorem claimed (h : ClaimsInv s) {buf : Buf} {curr : OffsetPair} {c : Claim}
    (hk : s.threads[k]? = some (.claiming buf curr)) (hthread : c.thread = k)
    (hbase : c.base = s.sgm.wOffset) (hnew : c.new = ⟨c.next, c.stop⟩) (hsmall : c.stop < 2 ^ 32) :
    ClaimsInv (s.claimed k c) := by
  have hlt : k < s.threads.length := (List.getElem?_eq_some_iff.mp hk).1
  have hstart := c.base_lt_stop
  rw [hbase] at hstart
  have hnext : s.sgm.wOffset.index ≤ c.next := by
    rw [← hbase]
    exact c.base_le_next
  have hself : (s.claimed k c).left c = c.stores := by
    refine left_storing ?_
    show (s.threads.set k _)[c.thread]? = _
    rw [hthread, List.getElem?_set_self hlt]
  have hold : ∀ c' ∈ s.claims, (s.claimed k c).left c' = s.left c' :=
    fun c' hc' => h.left_claimed hk hbase hc'
  have hoffset : (s.claimed k c).sgm.wOffset = ⟨c.next, c.stop⟩ := hnew
  refine ⟨?_, ?_, ?_, ?_, ?_, ?_, ?_, ?_, ?_, ?_⟩
  · rw [hoffset]
    exact hsmall
  · intro c' hc'
    rw [hoffset]
    rcases List.mem_append.mp hc' with hc' | hc'
    · obtain ⟨hstop, hidx⟩ := h.le c' hc'
      exact ⟨by show c'.stop ≤ c.stop; omega, by show c'.next ≤ c.next; omega⟩
    · rw [List.mem_singleton.mp hc']
      exact ⟨Nat.le_refl _, Nat.le_refl _⟩
  · refine List.pairwise_append.mpr ⟨h.before, List.pairwise_singleton _ _, fun c' hc' c'' hc'' =>
      ?_⟩
    rw [List.mem_singleton.mp hc'', Claim.Before, hbase]
    exact h.le c' hc'
  · intro _
    rcases Nat.eq_zero_or_pos s.sgm.wOffset.data with hzero | hpos
    · exact ⟨c, List.mem_append_right _ (List.mem_singleton_self c),
        hbase.trans (h.wOffset_eq_zero hzero)⟩
    · obtain ⟨c', hc', hzero⟩ := h.first hpos
      exact ⟨c', List.mem_append_left _ hc', hzero⟩
  · intro i hi
    rw [hoffset] at hi
    exact h.covers_claimed hbase hi
  · intro p hp
    rw [hoffset] at hp
    exact h.clear p (Nat.le_trans (Nat.le_of_lt hstart) hp)
  · intro i hi
    rw [hoffset] at hi
    exact h.clear_index i (Nat.le_trans hnext hi)
  · exact h.storing_set hlt rfl (List.mem_append_right _ (List.mem_singleton_self c)) hthread
      (List.subset_append_left _ _)
  · intro c' hc'
    rcases List.mem_append.mp hc' with hc' | hc'
    · rw [hold c' hc']
      exact h.progress c' hc'
    · rw [List.mem_singleton.mp hc', hself]
      refine ⟨[], rfl, fun p hp _ => ?_⟩
      rw [hbase] at hp
      exact h.clear p hp
  · intro c' hc' hframe
    rcases List.mem_append.mp hc' with hc' | hc'
    · rw [hold c' hc']
      exact h.entry c' hc' hframe
    · rw [List.mem_singleton.mp hc', hself, if_neg c.stores_ne_nil, hbase]
      exact h.clear_index _ (Nat.le_refl _)

/-- Two different claims are apart. -/
theorem apart (h : ClaimsInv s) {c c' : Claim} (hc : c ∈ s.claims) (hc' : c' ∈ s.claims)
    (hne : c ≠ c') :
    c.Before c' ∨ c'.Before c := by
  have hpair : s.claims.Pairwise fun a b => a.Before b ∨
    b.Before a := h.before.imp fun hab => .inl hab
  have hsymm : Std.Symm fun a b : Claim => a.Before b ∨ b.Before a := ⟨fun _ _ => Or.symm⟩
  exact hpair.forall hc hc' hne

section Stored

variable {c : Claim} {st : Store} {rest : List Store}

/-- A thread that is storing has a claim, and the store is the next one of it. -/
theorem next_store (h : ClaimsInv s) (hk : s.threads[k]? = some (.storing c (st :: rest))) :
    c ∈ s.claims ∧ c.thread = k ∧ s.left c = st :: rest ∧
      (st.Within c.base.data c.stop ∧ (c.frame ≠ none → rest ≠ []) ∨
        c.frame ≠ none ∧ st = .index c.base.index c.base.data ∧ rest = []) := by
  obtain ⟨hc, hthread⟩ := h.storing k c _ hk
  have hleft : s.left c = st :: rest := left_storing (by rw [hthread]; exact hk)
  obtain ⟨done, hdone, -⟩ := h.progress c hc
  rw [hleft] at hdone
  exact ⟨hc, hthread, hleft, Claim.next_store hdone⟩

/-- A store leaves the bytes outside of its claim alone. -/
theorem stored_buffer (h : ClaimsInv s) (hk : s.threads[k]? = some (.storing c (st :: rest)))
    {p : Nat} (hp : p < c.base.data ∨ c.stop ≤ p) :
    (s.stored k c st rest).sgm.buffer p = s.sgm.buffer p := by
  obtain ⟨-, -, -, ⟨hwithin, -⟩ | ⟨-, rfl, -⟩⟩ := h.next_store hk
  · rw [SegState.stored, Store.run_buffer]
    exact Store.bytes_of_within hwithin hp _
  · rfl

/-- A store leaves the entries of other frames alone. -/
theorem stored_index (h : ClaimsInv s) (hk : s.threads[k]? = some (.storing c (st :: rest)))
    {i : Nat} (hi : c.frame ≠ none → i ≠ c.base.index) :
    (s.stored k c st rest).sgm.index i = s.sgm.index i := by
  obtain ⟨-, -, -, ⟨hwithin, -⟩ | ⟨hframe, rfl, -⟩⟩ := h.next_store hk
  · rw [SegState.stored, Store.run_index, Store.entries_of_within hwithin]
  · show store s.sgm.index c.base.index [c.base.data] i = _
    rcases Nat.lt_or_gt_of_ne (hi hframe) with hlt | hgt
    · exact store_of_lt hlt
    · exact store_of_ge (by rw [List.length_singleton]; exact hgt)

/-- The claim that is stored has got one store further, and the others are where they were. -/
theorem stored_progress (h : ClaimsInv s) (hk : s.threads[k]? = some (.storing c (st :: rest)))
    {c' : Claim} (hc' : c' ∈ s.claims) :
    ∃ done, done ++ (s.stored k c st rest).left c' = c'.stores ∧ ∀ p, c'.base.data ≤ p →
      p < c'.stop →
      (s.stored k c st rest).sgm.buffer p = written (fun _ => 0) done p := by
  obtain ⟨hc, hthread, hleft, -⟩ := h.next_store hk
  obtain ⟨done, hdone, hbytes⟩ := h.progress c' hc'
  by_cases hne : c' = c
  · subst hne
    rw [hleft] at hdone
    rw [left_stored_self hk hthread]
    refine ⟨done ++ [st], by rw [List.append_assoc]; exact hdone, fun p hlo hhi => ?_⟩
    rw [SegState.stored, Store.run_buffer, written_append, written_cons, written_nil]
    exact st.bytes_congr (hbytes p hlo hhi)
  · rw [left_stored hk hne]
    refine ⟨done, hdone, fun p hlo hhi => ?_⟩
    rw [h.stored_buffer hk ?_]
    · exact hbytes p hlo hhi
    · rcases h.apart hc' hc hne with hbefore | hbefore
      · exact .inl (Nat.lt_of_lt_of_le hhi hbefore.1)
      · exact .inr (Nat.le_trans hbefore.1 hlo)

/-- The index entry of a frame is its last store. -/
theorem stored_entry (h : ClaimsInv s) (hk : s.threads[k]? = some (.storing c (st :: rest)))
    {c' : Claim} (hc' : c' ∈ s.claims) (hframe : c'.frame ≠ none) :
    (s.stored k c st rest).sgm.index c'.base.index =
      if (s.stored k c st rest).left c' = [] then c'.base.data else 0 := by
  obtain ⟨hc, hthread, hleft, hnext⟩ := h.next_store hk
  have hentry := h.entry c' hc' hframe
  by_cases hne : c' = c
  · subst hne
    rw [hleft, if_neg (List.cons_ne_nil _ _)] at hentry
    rw [left_stored_self hk hthread, SegState.stored, Store.run_index]
    rcases hnext with ⟨hwithin, hrest⟩ | ⟨-, rfl, rfl⟩
    · rw [if_neg (hrest hframe), Store.entries_of_within hwithin, hentry]
    · rw [if_pos rfl]
      show store s.sgm.index c'.base.index [c'.base.data] c'.base.index = _
      rw [store_of_mem (Nat.le_refl _) (by rw [List.length_singleton]; omega)]
      simp only [Nat.sub_self, List.getElem_cons_zero]
  · rw [left_stored hk hne, h.stored_index hk fun hframe' => ?_]
    · exact hentry
    · rcases h.apart hc' hc hne with ⟨-, hle⟩ | ⟨-, hle⟩
      · rw [Claim.next_of_frame hframe] at hle
        omega
      · rw [Claim.next_of_frame hframe'] at hle
        omega

/-- **A store of a claim** stays within the claim. -/
theorem stored (h : ClaimsInv s) (hk : s.threads[k]? = some (.storing c (st :: rest))) :
    ClaimsInv (s.stored k c st rest) := by
  have hlt : k < s.threads.length := (List.getElem?_eq_some_iff.mp hk).1
  obtain ⟨hc, hthread, -, -⟩ := h.next_store hk
  obtain ⟨hstop, hidx⟩ := h.le c hc
  have hoffset : (s.stored k c st rest).sgm.wOffset = s.sgm.wOffset := st.run_wOffset s.sgm
  refine ⟨?_, ?_, h.before, ?_, ?_, ?_, ?_, ?_, fun c' hc' => h.stored_progress hk hc',
    fun c' hc' hframe => h.stored_entry hk hc' hframe⟩
  · rw [hoffset]
    exact h.small
  · rw [hoffset]
    exact h.le
  · rw [hoffset]
    exact h.first
  · rw [hoffset]
    exact h.covers
  · intro p hp
    rw [hoffset] at hp
    rw [h.stored_buffer hk (.inr (Nat.le_trans hstop hp))]
    exact h.clear p hp
  · intro i hi
    rw [hoffset] at hi
    rw [h.stored_index hk fun hframe => ?_]
    · exact h.clear_index i hi
    · rw [Claim.next_of_frame hframe] at hidx
      omega
  · exact h.storing_set hlt rfl hc hthread (List.Subset.refl _)

end Stored

end ClaimsInv

/-! ## Steps -/

/-- The step makes a claim whose new write offset does not fit into 32 bits. -/
def wrapsClaim (s : SegState) (i : Nat × SegAct) : Bool :=
  match i.2, s.threads[i.1]? with
  | .access, some (.claiming buf curr) =>
    s.sgm.wOffset = curr ∧ (2 ^ 32 ≤ (claimOf s.sgm i.1 buf curr).stop ∨
      2 ^ 32 ≤ (claimOf s.sgm i.1 buf curr).next)
  | _, _ => false

/-- The new write offset, where the counters do not wrap around. -/
theorem Claim.new_eq {c : Claim} (hstop : c.stop < 2 ^ 32) (hnext : c.next < 2 ^ 32) :
    c.new = ⟨c.next, c.stop⟩ := by
  obtain ⟨k, base, frame⟩ := c
  cases frame with
  | none =>
    have hstop' : base.data + headerSize < 2 ^ 32 := hstop
    show (⟨base.index, (base.data + headerSize) % 2 ^ 32⟩ : OffsetPair) =
      ⟨base.index, base.data + headerSize⟩
    rw [Nat.mod_eq_of_lt hstop']
  | some buf =>
    have hstop' : base.data + (headerSize + buf.1.length) < 2 ^ 32 := hstop
    have hnext' : base.index + 1 < 2 ^ 32 := hnext
    have hframe : (headerSize + buf.1.length) % 2 ^ 64 = headerSize + buf.1.length :=
      Nat.mod_eq_of_lt (by omega)
    show (⟨(base.index + 1) % 2 ^ 32, (base.data + (headerSize + buf.1.length) % 2 ^ 64) % 2 ^ 32⟩ :
      OffsetPair) = ⟨base.index + 1, base.data + (headerSize + buf.1.length)⟩
    rw [hframe, Nat.mod_eq_of_lt hstop', Nat.mod_eq_of_lt hnext']

theorem claimOf_thread (sgm : Segment) (k : Nat) (buf : Buf) (curr : OffsetPair) :
    (claimOf sgm k buf curr).thread = k := by
  unfold claimOf
  dsimp only
  split
  · rfl
  · rfl

/-- What readers can rely on: the write offset grows, claims stay, and get on. -/
structure Later (s s' : SegState) : Prop where
  flags_eq : s'.sgm.flags = s.sgm.flags
  data_le : s.sgm.wOffset.data ≤ s'.sgm.wOffset.data
  index_le : s.sgm.wOffset.index ≤ s'.sgm.wOffset.index
  claims : ∀ c ∈ s.claims, c ∈ s'.claims
  left_le : ∀ c ∈ s.claims, (s'.left c).length ≤ (s.left c).length

/-- A frame that is shown stays shown. -/
theorem SegState.Shown.later {s s' : SegState} {i hdr : Nat} {buf : Buf} (h : s.Shown i hdr buf)
    (hlater : Later s s') : s'.Shown i hdr buf := by
  obtain ⟨c, hc, hframe, hbase, hleft⟩ := h
  exact ⟨c, hlater.claims c hc, hframe, hbase, Nat.le_trans (hlater.left_le c hc) hleft⟩

/-- The step lemma for the claims. -/
theorem ClaimsInv.step {s s' : SegState} {i : Nat × SegAct} (h : ClaimsInv s)
    (hwrap : wrapsClaim s i = false) (hstep : segStep s i = some s') : ClaimsInv s' ∧
    Later s s' := by
  obtain ⟨k, act⟩ := i
  rcases segStep_effect hstep with ⟨pc, hmoves⟩ | ⟨c, hk, rfl⟩ | ⟨buf, -, hk, rfl⟩ |
    ⟨buf, rfl, hk, rfl⟩ |
    ⟨c, st, rest, hk, rfl⟩
  · have hwas : ∀ c rest, s.threads[k]? = some (.storing c rest) → rest = [] :=
      fun c rest hrest => absurd hrest (hmoves.was c rest)
    refine ⟨h.move hwas hmoves.threads_eq hmoves.not_storing hmoves.sgm_eq hmoves.claims_eq,
      by rw [hmoves.sgm_eq], by rw [hmoves.sgm_eq], by rw [hmoves.sgm_eq],
      fun c hc => by rw [hmoves.claims_eq]; exact hc, fun c _ => ?_⟩
    rw [left_of_moves hwas hmoves.threads_eq hmoves.not_storing]
  · have hwas : ∀ c' rest, s.threads[k]? = some (.storing c' rest) → rest = [] := by
      intro c' rest hrest
      rw [hk] at hrest
      exact (SegPc.storing.inj (Option.some.inj hrest)).2.symm
    have hidle : ∀ c rest, SegPc.idle ≠ .storing c rest := fun _ _ => SegPc.noConfusion
    refine ⟨h.move hwas rfl hidle rfl rfl, rfl, Nat.le_refl _, Nat.le_refl _, fun c hc => hc,
      fun c' _ => ?_⟩
    rw [left_of_moves hwas (rfl : (s.goto k .idle).threads = _) hidle]
  · have hwas : ∀ c rest, s.threads[k]? = some (.storing c rest) → rest = [] := by
      intro c rest hrest
      rw [hk] at hrest
      cases hrest
    have hnot : ∀ c rest, SegPc.claiming buf s.sgm.wOffset ≠ .storing c rest :=
      fun _ _ => SegPc.noConfusion
    refine ⟨h.move hwas rfl hnot rfl rfl, rfl, Nat.le_refl _, Nat.le_refl _, fun c hc => hc,
      fun c' _ => ?_⟩
    rw [left_of_moves hwas (rfl : (s.goto k _).threads = _) hnot]
  · generalize hc : claimOf s.sgm k buf s.sgm.wOffset = c
    have hbase : c.base = s.sgm.wOffset := by rw [← hc, claimOf_base]
    have hthread : c.thread = k := by rw [← hc, claimOf_thread]
    simp only [wrapsClaim, hk, hc, true_and, decide_eq_false_iff_not, not_or, Nat.not_le] at hwrap
    have hnew := Claim.new_eq hwrap.1 hwrap.2
    refine ⟨h.claimed hk hthread hbase hnew hwrap.1, rfl, ?_, ?_,
      fun c' hc' => List.mem_append_left _ hc', fun c' hc' => by rw [h.left_claimed hk hbase hc']⟩
    · show s.sgm.wOffset.data ≤ c.new.data
      rw [hnew, ← hbase]
      exact Nat.le_of_lt c.base_lt_stop
    · show s.sgm.wOffset.index ≤ c.new.index
      rw [hnew, ← hbase]
      exact c.base_le_next
  · obtain ⟨hc, hthread⟩ := h.storing k c _ hk
    have hsgm : (st.run s.sgm).flags = s.sgm.flags ∧ (st.run s.sgm).wOffset = s.sgm.wOffset := by
      cases st with
      | data pos bytes => exact ⟨rfl, rfl⟩
      | index i physicalOffset => exact ⟨rfl, rfl⟩
    refine ⟨h.stored hk, hsgm.1, by rw [← hsgm.2]; rfl, by rw [← hsgm.2]; rfl, fun c' hc' => hc',
      fun c' _ => ?_⟩
    by_cases hne : c' = c
    · subst hne
      rw [left_stored_self hk hthread, left_storing (by rw [hthread]; exact hk)]
      exact Nat.le_succ _
    · rw [left_stored hk hne]

/-! ## What a reader sees -/

section Readers

variable {s s' : SegState} {k : Nat}

/-- The bytes of a frame that is shown. -/
theorem ClaimsInv.shown_bytes (h : ClaimsInv s) {i hdr : Nat} {buf : Buf}
    (hshown : s.Shown i hdr buf) :
    hdr + (headerSize + buf.1.length) < 2 ^ 32 ∧
      load s.sgm.buffer hdr (headerSize + buf.1.length) = frame buf := by
  obtain ⟨c, hc, hframe, hbase, hleft⟩ := hshown
  have hstop : c.stop = hdr + (headerSize + buf.1.length) := by
    rw [Claim.stop, Claim.size, hframe, hbase]
  obtain ⟨done, hdone, hbytes⟩ := h.progress c hc
  have hsmall := h.small
  have hle := (h.le c hc).1
  have hstores : done ++ s.left c = frameStores c.base buf := by
    rw [hdone, Claim.stores, hframe]
  refine ⟨by omega, ?_⟩
  have hload : load s.sgm.buffer hdr (headerSize + buf.1.length) =
      load (written (fun _ => 0) done) hdr (headerSize + buf.1.length) := by
    refine load_congr fun p hlo hhi => hbytes p ?_ ?_
    · rw [hbase]
      exact hlo
    · rw [hstop]
      exact hhi
  rw [hload, written_done hstores hleft, hbase]
  have hinit :=
    load_store_init (m := fun _ => (0 : UInt8)) (a := hdr) (r := []) (length_frame buf).symm
  rw [List.append_nil] at hinit
  exact hinit

/-- The header and the payload of a frame that is shown. -/
theorem ClaimsInv.shown_message (h : ClaimsInv s) {i hdr : Nat} {buf : Buf}
    (hshown : s.Shown i hdr buf) :
    framePayloadSize s.sgm.buffer hdr = buf.1.length ∧
      load s.sgm.buffer (hdr + headerSize) buf.1.length = buf.1 := by
  obtain ⟨hsmall, hload⟩ := h.shown_bytes hshown
  rw [frame, load_add] at hload
  obtain ⟨hhdr, hbuf⟩ := List.append_inj hload (by rw [length_load, length_headerBytes])
  refine ⟨?_, hbuf⟩
  have hsize : hdrSize s.sgm.buffer hdr = headerSize + buf.1.length :=
    HeaderAt.size_eq hhdr (by omega)
  have h12 : headerSize = 12 := rfl
  rw [framePayloadSize, hsize]
  omega

/-- **An index entry that is not zero** is that of a frame that is shown. -/
theorem ClaimsInv.shown_of_entry (h : ClaimsInv s) {i : Nat} (hi : i < s.sgm.wOffset.index)
    (hne : s.sgm.index i ≠ 0) : ∃ buf, s.Shown i (s.sgm.index i) buf := by
  obtain ⟨c, hc, hframe, rfl⟩ := h.covers i hi
  have hentry := h.entry c hc hframe
  split at hentry
  · rename_i hnil
    obtain ⟨buf, hbuf⟩ := Option.ne_none_iff_exists'.mp hframe
    refine ⟨buf, c, hc, hbuf, ?_, by rw [hnil]; exact Nat.zero_le 1⟩
    rw [hentry]
  · exact absurd hentry hne

/-- **Flags that are ready at position 0** are those of the first frame, which is shown. -/
theorem ClaimsInv.shown_of_flags (h : ClaimsInv s) (hpos : 0 < s.sgm.wOffset.data)
    (hready : hdrFlags s.sgm.buffer 0 = headerFlagsReady) : ∃ buf, s.Shown 0 0 buf := by
  obtain ⟨c, hc, hbase⟩ := h.first hpos
  obtain ⟨done, hdone, hbytes⟩ := h.progress c hc
  have hsize : 0 + headerSize ≤ c.stop := by
    rw [Claim.stop, Claim.size, hbase]
    split
    · exact Nat.add_le_add_left (Nat.le_add_right _ _) 0
    · exact Nat.le_refl _
  have h12 : headerSize = 12 := rfl
  have hflags : hdrFlags (written (fun _ => 0) done) c.base.data = headerFlagsReady := by
    rw [hbase, ← hready]
    refine (get16_congr fun i hi => hbytes (0 + i) ?_ ?_).symm
    · rw [hbase]
      exact Nat.zero_le _
    · omega
  cases hframe : c.frame with
  | none =>
    rw [Claim.stores, hframe] at hdone
    exact absurd hflags (flags_ne_ready hdone)
  | some buf =>
    rw [Claim.stores, hframe] at hdone
    exact ⟨buf, c, hc, hframe, hbase, ready_of_flags hdone hflags⟩

/-- What a reader knows at each of its accesses. -/
def ReaderOk (s : SegState) : SegPc → Prop
  | .entries _ boundary => boundary ≤ s.sgm.wOffset.data
  | .entry relativeOffset boundary =>
    boundary ≤ s.sgm.wOffset.data ∧ relativeOffset < s.sgm.wOffset.index
  | .flags relativeOffset physicalOffset =>
    (∃ buf, s.Shown relativeOffset physicalOffset buf) ∨
      (relativeOffset = 0 ∧ physicalOffset = 0 ∧ 0 < s.sgm.wOffset.data)
  | .size relativeOffset physicalOffset => ∃ buf, s.Shown relativeOffset physicalOffset buf
  | _ => True

theorem ReaderOk.later {pc : SegPc} (h : ReaderOk s pc) (hlater : Later s s') : ReaderOk s' pc := by
  cases pc with
  | entries relativeOffset boundary => exact Nat.le_trans h hlater.data_le
  | entry relativeOffset boundary =>
    exact ⟨Nat.le_trans h.1 hlater.data_le, Nat.lt_of_lt_of_le h.2 hlater.index_le⟩
  | flags relativeOffset physicalOffset =>
    rcases h with ⟨buf, hshown⟩ | ⟨hrel, hphys, hpos⟩
    · exact .inl ⟨buf, hshown.later hlater⟩
    · exact .inr ⟨hrel, hphys, Nat.lt_of_lt_of_le hpos hlater.data_le⟩
  | size relativeOffset physicalOffset =>
    obtain ⟨buf, hshown⟩ := h
    exact ⟨buf, hshown.later hlater⟩
  | idle => exact trivial
  | markedOffset buf => exact trivial
  | markedFlags buf hdr => exact trivial
  | writeOffset buf => exact trivial
  | claiming buf curr => exact trivial
  | storing c rest => exact trivial
  | boundary relativeOffset => exact trivial

/-- What `segment_read` returned is shown. -/
def ReturnedOk (s : SegState) (r : Returned) : Prop :=
  0 ≤ r.rc → ∃ hdr buf, s.Shown r.relativeOffset hdr buf ∧ r.rc = (buf.1.length : Int) ∧
    r.fr = ⟨some hdr, some (hdr + headerSize)⟩

/-- What a read has returned stays true. -/
theorem ReturnedOk.later {r : Returned} (h : ReturnedOk s r) (hlater : Later s s') :
    ReturnedOk s' r := by
  intro hrc
  obtain ⟨hdr, buf, hshown, hrest⟩ := h hrc
  exact ⟨hdr, buf, hshown.later hlater, hrest⟩

/-- What holds of every state of a segment that is read dirty. -/
structure PublishInv (s : SegState) : Prop where
  flags_eq : s.sgm.flags = sgmRddrt
  claims : ClaimsInv s
  readers : ∀ (k : Nat) (pc : SegPc), s.threads[k]? = some pc → ReaderOk s pc
  returned : ∀ r ∈ s.returned, ReturnedOk s r

/-- A step of thread `k` keeps the invariant when `k` knows afterwards what it has to. -/
theorem PublishInv.next (h : PublishInv s) (hclaims : ClaimsInv s') (hlater : Later s s')
    {pc : SegPc} (hthreads : s'.threads = s.threads.set k pc) (hpc : ReaderOk s' pc)
    (hreturned : ∀ r ∈ s'.returned, r ∈ s.returned ∨ ReturnedOk s' r) : PublishInv s' where
  flags_eq := hlater.flags_eq.trans h.flags_eq
  claims := hclaims
  readers j pc' hj := by
    rw [hthreads, List.getElem?_set] at hj
    split at hj
    · split at hj
      · rw [← Option.some.inj hj]
        exact hpc
      · cases hj
    · exact (h.readers j pc' hj).later hlater
  returned r hr := by
    rcases hreturned r hr with hold | hnew
    · exact (h.returned r hold).later hlater
    · exact hnew

/-- A refusal is no frame. -/
theorem returned_refused {relativeOffset : Nat} {rc : Int} {fr : Frame} (hrc : rc < 0) :
    ∀ r ∈ (s.answer k relativeOffset rc fr).returned,
      r ∈ s.returned ∨ ReturnedOk (s.answer k relativeOffset rc fr) r := by
  intro r hr
  rcases List.mem_append.mp hr with hr | hr
  · exact .inl hr
  · rw [List.mem_singleton.mp hr]
    exact .inr fun hpos => absurd hpos (Int.not_le.mpr hrc)

/-- A frame that is shown may be returned. -/
theorem returned_shown {relativeOffset hdr : Nat} {buf : Buf} {rc : Int}
    (hshown : (s.answer k relativeOffset rc ⟨some hdr, some (hdr + headerSize)⟩).Shown
      relativeOffset hdr
      buf) (hrc : rc = (buf.1.length : Int)) :
    ∀ r ∈ (s.answer k relativeOffset rc ⟨some hdr, some (hdr + headerSize)⟩).returned,
      r ∈ s.returned ∨
        ReturnedOk (s.answer k relativeOffset rc ⟨some hdr, some (hdr + headerSize)⟩) r := by
  intro r hr
  rcases List.mem_append.mp hr with hr | hr
  · exact .inl hr
  · rw [List.mem_singleton.mp hr]
    exact .inr fun _ => ⟨hdr, buf, hshown, hrc, rfl⟩

/-- The boundary that a reader takes. -/
theorem PublishInv.boundary_ok (h : PublishInv s) (relativeOffset : Nat) :
    ReaderOk s (.entries relativeOffset
      (if s.sgm.flags &&& sgmRdcmt = sgmRdcmt then s.sgm.sOffset.data else
        s.sgm.wOffset.data)) := by
  rw [h.flags_eq, if_neg (by decide)]
  exact Nat.le_refl s.sgm.wOffset.data

/-- An index entry below the boundary is that of a frame which is shown, or it is the first one and
    not stored yet. -/
theorem PublishInv.entry_ok (h : PublishInv s) {relativeOffset boundary : Nat}
    (hok : ReaderOk s (.entry relativeOffset boundary))
    (hzero : ¬ (relativeOffset ≠ 0 ∧ s.sgm.index relativeOffset = 0))
    (hbound : ¬ boundary ≤ s.sgm.index relativeOffset) :
    ReaderOk s (.flags relativeOffset (s.sgm.index relativeOffset)) := by
  obtain ⟨hboundary, hlt⟩ := hok
  by_cases hphys : s.sgm.index relativeOffset = 0
  · have hrel : relativeOffset = 0 := by
      by_contra hne
      exact hzero ⟨hne, hphys⟩
    exact .inr ⟨hrel, hphys, by omega⟩
  · exact .inl (h.claims.shown_of_entry hlt hphys)

/-- A frame whose flags are ready is shown. -/
theorem PublishInv.flags_ok (h : PublishInv s) {relativeOffset physicalOffset : Nat}
    (hok : ReaderOk s (.flags relativeOffset physicalOffset))
    (hready : hdrFlags s.sgm.buffer physicalOffset = headerFlagsReady) :
    ReaderOk s (.size relativeOffset physicalOffset) := by
  rcases hok with hshown | ⟨rfl, rfl, hpos⟩
  · exact hshown
  · exact h.claims.shown_of_flags hpos hready

/-- **The step lemma.** -/
theorem PublishInv.step {i : Nat × SegAct} (h : PublishInv s) (hwrap : wrapsClaim s i = false)
    (hstep : segStep s i = some s') : PublishInv s' := by
  obtain ⟨hclaims, hlater⟩ := h.claims.step hwrap hstep
  obtain ⟨k, act⟩ := i
  have hkeep : ∀ r ∈ s.returned, r ∈ s.returned ∨ ReturnedOk s' r := fun r hr => .inl hr
  rcases segStep_cases hstep with ⟨buf, hk, rfl⟩ | ⟨relativeOffset, hk, rfl⟩ |
    ⟨pc, rfl, hk, haccess⟩
  · exact h.next hclaims hlater rfl trivial hkeep
  · exact h.next hclaims hlater rfl trivial hkeep
  have hok := h.readers k pc hk
  cases pc with
  | idle => cases haccess
  | markedOffset buf =>
    simp only [SegState.access] at haccess
    split at haccess
    · cases haccess
      exact h.next hclaims hlater rfl trivial hkeep
    · cases haccess
      exact h.next hclaims hlater rfl trivial hkeep
  | markedFlags buf hdr =>
    simp only [SegState.access] at haccess
    split at haccess
    · cases haccess
      exact h.next hclaims hlater rfl trivial hkeep
    · cases haccess
      exact h.next hclaims hlater rfl trivial hkeep
  | writeOffset buf =>
    cases haccess
    exact h.next hclaims hlater rfl trivial hkeep
  | claiming buf curr =>
    rcases access_claiming_cases haccess with ⟨-, rfl⟩ | ⟨-, rfl⟩
    · exact h.next hclaims hlater rfl trivial hkeep
    · exact h.next hclaims hlater rfl trivial hkeep
  | storing c rest =>
    cases rest with
    | nil =>
      cases haccess
      exact h.next hclaims hlater rfl trivial hkeep
    | cons st rest =>
      cases haccess
      exact h.next hclaims hlater rfl trivial hkeep
  | boundary relativeOffset =>
    cases haccess
    exact h.next hclaims hlater rfl ((h.boundary_ok relativeOffset).later hlater) hkeep
  | entries relativeOffset boundary =>
    simp only [SegState.access] at haccess
    split at haccess
    · cases haccess
      exact h.next hclaims hlater rfl trivial (returned_refused (by decide))
    · rename_i hlt
      cases haccess
      exact h.next hclaims hlater rfl ⟨hok, Nat.lt_of_not_le hlt⟩ hkeep
  | entry relativeOffset boundary =>
    simp only [SegState.access] at haccess
    split at haccess
    · cases haccess
      exact h.next hclaims hlater rfl trivial (returned_refused (by decide))
    rename_i hzero
    split at haccess
    · cases haccess
      exact h.next hclaims hlater rfl trivial (returned_refused (by decide))
    · rename_i hbound
      cases haccess
      exact h.next hclaims hlater rfl ((h.entry_ok hok hzero hbound).later hlater) hkeep
  | flags relativeOffset physicalOffset =>
    simp only [SegState.access] at haccess
    split at haccess
    · rename_i hready
      cases haccess
      exact h.next hclaims hlater rfl ((h.flags_ok hok hready).later hlater) hkeep
    split at haccess
    · cases haccess
      exact h.next hclaims hlater rfl trivial (returned_refused (by decide))
    · cases haccess
      exact h.next hclaims hlater rfl trivial (returned_refused (by decide))
  | size relativeOffset physicalOffset =>
    cases haccess
    obtain ⟨buf, hshown⟩ := hok
    have hrc : toSsize (framePayloadSize s.sgm.buffer physicalOffset) = (buf.1.length : Int) := by
      rw [(h.claims.shown_message hshown).1, toSsize_of_lt buf.2]
    exact h.next hclaims hlater rfl trivial (returned_shown (hshown.later hlater) hrc)

/-- Nothing is published in a fresh segment. -/
theorem PublishInv.init (n base size : Nat) :
    PublishInv (segInit (Segment.fresh base size sgmRddrt) n) where
  flags_eq := rfl
  claims :=
    { small := Nat.two_pow_pos 32
      le := fun c hc => absurd hc List.not_mem_nil
      before := List.Pairwise.nil
      first := fun hpos => absurd hpos (Nat.lt_irrefl 0)
      covers := fun i hi => absurd hi (Nat.not_lt_zero i)
      clear := fun _ _ => rfl
      clear_index := fun _ _ => rfl
      storing := fun k c rest hk => by
        cases List.eq_of_mem_replicate (List.mem_of_getElem? hk)
      progress := fun c hc => absurd hc List.not_mem_nil
      entry := fun c hc => absurd hc List.not_mem_nil }
  readers k pc hk := by
    rw [List.eq_of_mem_replicate (List.mem_of_getElem? hk)]
    exact trivial
  returned r hr := absurd hr List.not_mem_nil

end Readers

/-! ## Publication safety -/

/-- The claimed bytes are disjoint and the claimed indices distinct, and every frame that
    `segment_read` has handed out is that of the only writer that claimed the index, byte for
    byte. -/
structure PublishesFrames (s : SegState) : Prop where
  disjoint : s.claims.Pairwise fun c c' => c.stop ≤ c'.base.data ∨ c'.stop ≤ c.base.data
  distinct : s.claims.Pairwise fun c c' =>
    c.frame ≠ none → c'.frame ≠ none → c.base.index ≠ c'.base.index
  reads : ∀ r ∈ s.returned, 0 ≤ r.rc → ∃ c buf hdr, c ∈ s.claims ∧ c.frame = some buf ∧
    c.base.index = r.relativeOffset ∧
    (∀ c' ∈ s.claims, c'.frame ≠ none → c'.base.index = r.relativeOffset → c' = c) ∧
    r.rc = (buf.1.length : Int) ∧ r.fr = ⟨some hdr, some (hdr + headerSize)⟩ ∧
    load s.sgm.buffer (hdr + headerSize) buf.1.length = buf.1

/-- The invariant gives the property: what is published is a written frame. -/
theorem PublishInv.publishes {s : SegState} (h : PublishInv s) : PublishesFrames s where
  disjoint := h.claims.before.imp fun hbefore => .inl hbefore.1
  distinct := by
    refine h.claims.before.imp fun {c c'} hbefore hframe _ heq => ?_
    have hle := hbefore.2
    rw [Claim.next_of_frame hframe, heq] at hle
    omega
  reads r hr hrc := by
    obtain ⟨hdr, buf, hshown, hlen, hfr⟩ := h.returned r hr hrc
    have hmessage := (h.claims.shown_message hshown).2
    obtain ⟨c, hc, hframe, hbase, -⟩ := hshown
    refine ⟨c, buf, hdr, hc, hframe, by rw [hbase], fun c' hc' hframe' hidx => ?_, hlen, hfr,
      hmessage⟩
    by_contra hne
    have hsome : c.frame ≠ none := by rw [hframe]; exact Option.some_ne_none buf
    rcases h.claims.apart hc' hc hne with hbefore | hbefore
    · have hle := hbefore.2
      rw [Claim.next_of_frame hframe', hidx, hbase] at hle
      exact Nat.not_succ_le_self _ hle
    · have hle := hbefore.2
      rw [Claim.next_of_frame hsome, hidx, hbase] at hle
      exact Nat.not_succ_le_self _ hle

/-- **Publication safety**: in every interleaving of any number of threads that write to a fresh
    segment and read it, while the counters do not wrap around. -/
theorem publication_safe {page : PageSize} {base size : Nat} {sgm : Segment} {files : SegmentFiles}
    (hopen : segmentOpen page .ok ⟨none, none⟩ base size sgmRddrt = (0, some sgm, files))
    {n : Nat} {is : List (Nat × SegAct)} {s : SegState}
    (hrun : run segStep (segInit sgm n) is = some s)
    (hwrap : Along segStep (fun s i => wrapsClaim s i = false) (segInit sgm n) is) :
    PublishesFrames s := by
  obtain ⟨-, -, rfl, -⟩ := segmentOpen_new_size hopen
  refine PublishInv.publishes (Lib.run_invariant (I := PublishInv) ?_ is _ _ hwrap
    (.init n base size) hrun)
  intro s i s' hok hinv hstep
  exact hinv.step hok hstep

/-- Thread 0 writes two bytes, and thread 1 reads them before that call has returned. -/
def writeAndRead : List (Nat × SegAct) :=
  [(0, .write (bytes 2 0x61 (by decide))), (0, .access), (0, .access), (0, .access), (0, .access),
    (0, .access), (0, .access), (0, .access), (0, .access), (0, .access), (0, .access),
      (0, .access),
    (0, .access), (1, .read 0), (1, .access), (1, .access), (1, .access), (1, .access),
      (1, .access)]

theorem publication_safe_of_two :
    ∃ s, run segStep (segInit (Segment.fresh 0 4096 sgmRddrt) 2) writeAndRead = some s ∧
      PublishesFrames s ∧ s.returned.map (fun r => (r.relativeOffset, r.rc)) = [(0, 2)] := by
  have hopen : segmentOpen page4096 .ok ⟨none, none⟩ 0 4096 sgmRddrt =
      (0, some (Segment.fresh 0 4096 sgmRddrt), _) := segmentOpen_new 0 _ (by decide) (by decide)
  have hruns : (run segStep (segInit (Segment.fresh 0 4096 sgmRddrt) 2) writeAndRead).map
      (fun s => s.returned.map fun r => (r.relativeOffset, r.rc)) = some [(0, 2)] := by
        decide +kernel
  obtain ⟨s, hrun, hreturned⟩ := Option.map_eq_some_iff.mp hruns
  exact ⟨s, hrun, publication_safe hopen hrun (by decide +kernel), hreturned⟩

end Mqlog
