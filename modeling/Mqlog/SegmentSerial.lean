/-
  What threads that write to one segment leave behind.

  The claims of a segment lie one behind the other from position 0 up to the write offset
  (`SerialInv`), in the order in which the compare-and-swaps succeeded.  So once every store is
  made, the segment holds the accepted payloads in this order and nothing else
  (`writers_serialize`): their frames are one behind the other, entry `i` of the index is where the
  `i`-th frame starts, and the write offset is behind the last frame, or behind the end-of-segment
  frame when the segment is sealed.  What is proved of a segment that holds messages (`Holds`) is
  then true of it, whatever the interleaving was.

  It need not be what `segment_write` makes of the payloads when it is called with one after the
  other: a payload that ends like an end-of-segment frame stops every later call, but not a thread
  that was past `marked_eos` when it was written.

    1. The bytes of the claims.  A claim for a payload has the bytes of a frame, the claim of
       `mark_eos` those of an end-of-segment frame; so the claims are records in the sense of
       `Lib.Records`, and their positions are the write offsets at which they were made.
    2. `SerialInv` is `ClaimsInv` and `SealInv`, with the equation between the claims and the write
       offset and one for the fields that no thread changes.  A step that makes no claim keeps it
       with the same claims (`SerialInv.same`), a claim that succeeds adds one at the end.
    3. When no store is left, the bytes of each claim are stored (`SerialInv.holds`), and the
       segment is equal to `Segment.holding`, in every field.

  That no claim wraps the write offset around follows here from the other condition: all claims lie
  in front of the end of the segment, whose size is below `2 ^ 32` (`SerialInv.wrapsClaim_eq`).  So
  of the conditions of `publication_safe` and `stays_sealed` one is left, that no thread reads the
  write offset for a claim after the seal.
-/
import Mqlog.SegmentPublish
import Mqlog.SegmentSeal

namespace Mqlog

open Lib (run Along)
open Lib.Mem Lib.Records

/-! ## The bytes of the claims -/

/-- The payloads that have been claimed for, in the order of the claims. -/
def payloads (claims : List Claim) : List Buf := claims.filterMap Claim.frame

@[simp] theorem payloads_nil : payloads [] = [] := rfl

theorem payloads_append (claims claims' : List Claim) :
    payloads (claims ++ claims') = payloads claims ++ payloads claims' := List.filterMap_append

/-- The bytes of a claim whose stores are made. -/
def Claim.bytes (c : Claim) : List UInt8 :=
  match c.frame with
  | some buf => Mqlog.frame buf
  | none => eosFrame

@[simp] theorem Claim.length_bytes (c : Claim) : c.bytes.length = c.size := by
  obtain ⟨k, base, frame⟩ := c
  cases frame with
  | none => rfl
  | some buf => exact length_frame buf

/-- A claim adds one to the index for each payload. -/
theorem Claim.next_eq (c : Claim) : c.next = c.base.index + (payloads [c]).length := by
  obtain ⟨k, base, frame⟩ := c
  cases frame with
  | none => rfl
  | some buf => rfl

theorem payloads_of_frame {c : Claim} (h : c.frame ≠ none) : ∃ buf, c.frame = some buf ∧
    payloads [c] = [buf] ∧ c.bytes = frame buf := by
  obtain ⟨buf, hbuf⟩ := Option.ne_none_iff_exists'.mp h
  refine ⟨buf, hbuf, ?_, ?_⟩
  · rw [payloads, List.filterMap_cons_some hbuf, List.filterMap_nil]
  · rw [Claim.bytes, hbuf]

/-- The bytes of claims for payloads are the frames of these payloads. -/
theorem image_bytes : ∀ {claims : List Claim}, (∀ c ∈ claims, c.frame ≠ none) →
    image Claim.bytes claims = image frame (payloads claims) ∧
      (payloads claims).length = claims.length
  | [], _ => ⟨rfl, rfl⟩
  | c :: claims, h => by
    obtain ⟨himage, hlength⟩ := image_bytes fun c' hc' => h c' (List.mem_cons_of_mem _ hc')
    obtain ⟨buf, -, hpayloads, hbytes⟩ := payloads_of_frame (h c List.mem_cons_self)
    have hcons : payloads (c :: claims) = buf :: payloads claims := by
      rw [← List.singleton_append, payloads_append, hpayloads, List.singleton_append]
    constructor
    · rw [hcons, image, image, List.flatMap_cons, List.flatMap_cons, hbytes]
      exact congrArg (frame buf ++ ·) himage
    · rw [hcons, List.length_cons, List.length_cons, hlength]

/-- Where the claims of a segment end, whose seal is the last one. -/
theorem image_bytes_sealed {s : SegState} (hlast : ∀ c ∈ s.claims.dropLast, c.frame ≠ none) :
    image Claim.bytes s.claims =
      image frame (payloads s.claims) ++ if s.sealed then eosFrame else [] := by
  rcases List.eq_nil_or_concat s.claims with hnil | ⟨claims, c, hconcat⟩
  · rw [SegState.sealed, hnil]
    rfl
  · rw [List.concat_eq_append] at hconcat
    rw [hconcat, List.dropLast_concat] at hlast
    obtain ⟨himage, -⟩ := image_bytes hlast
    have hnone : (claims.any fun c => c.frame.isNone) = false := by
      rw [List.any_eq_false]
      intro c' hc' hc'none
      exact hlast c' hc' (Option.isNone_iff_eq_none.mp hc'none)
    rw [SegState.sealed, hconcat, payloads_append, image_snoc, himage, List.any_append, hnone,
      Bool.false_or, List.any_cons, List.any_nil, Bool.or_false]
    cases hframe : c.frame with
    | none =>
      have hnil : payloads [c] = [] := List.filterMap_cons_none hframe
      rw [hnil, List.append_nil, Claim.bytes, hframe]
      rfl
    | some buf =>
      obtain ⟨buf', -, hpayloads, hbytes⟩ :=
        payloads_of_frame (c := c) (by rw [hframe]; exact Option.some_ne_none _)
      rw [hpayloads, hbytes, image_snoc]
      exact (List.append_nil _).symm

/-- The claims in front of the seal. -/
theorem exists_front {claims : List Claim} (hlast : ∀ c ∈ claims.dropLast, c.frame ≠ none) :
    ∃ front back, claims = front ++ back ∧ (∀ c ∈ front, c.frame ≠ none) ∧
      payloads claims = payloads front := by
  rcases List.eq_nil_or_concat claims with rfl | ⟨init, c, rfl⟩
  · exact ⟨[], [], rfl, fun c hc => absurd hc List.not_mem_nil, rfl⟩
  · rw [List.concat_eq_append] at hlast ⊢
    rw [List.dropLast_concat] at hlast
    by_cases hframe : c.frame = none
    · refine ⟨init, [c], rfl, hlast, ?_⟩
      rw [payloads_append, show payloads [c] = [] from List.filterMap_cons_none hframe,
        List.append_nil]
    · refine ⟨init ++ [c], [], (List.append_nil _).symm, fun c' hc' => ?_, rfl⟩
      rcases List.mem_append.mp hc' with hc' | hc'
      · exact hlast c' hc'
      · rw [List.mem_singleton.mp hc']
        exact hframe

/-- The payloads of the first claims are the first payloads. -/
theorem payloads_take {claims : List Claim} (h : ∀ c ∈ claims, c.frame ≠ none) (k : Nat) :
    payloads (claims.take k) = (payloads claims).take k := by
  rcases Nat.lt_or_ge k claims.length with hlt | hge
  · have hlen : (payloads (claims.take k)).length = k := by
      rw [(image_bytes fun c hc => h c (List.mem_of_mem_take hc)).2, List.length_take,
        Nat.min_eq_left (Nat.le_of_lt hlt)]
    have hsplit : payloads claims = payloads (claims.take k) ++ payloads (claims.drop k) := by
      rw [← payloads_append, List.take_append_drop]
    rw [hsplit, List.take_left' hlen]
  · rw [List.take_of_length_le hge, List.take_of_length_le]
    rw [(image_bytes h).2]
    exact hge

/-- The claim of a payload. -/
theorem frame_getElem {claims : List Claim} (h : ∀ c ∈ claims, c.frame ≠ none) {k : Nat}
    (hk : k < claims.length) (hk' : k < (payloads claims).length) :
    claims[k].frame = some (payloads claims)[k] := by
  have hmap : ∀ {cs : List Claim}, (∀ c ∈ cs, c.frame ≠ none) →
      (payloads cs).map some = cs.map Claim.frame := by
    intro cs hcs
    induction cs with
    | nil => rfl
    | cons c cs ih =>
      obtain ⟨buf, hbuf, -, -⟩ := payloads_of_frame (hcs c List.mem_cons_self)
      rw [payloads, List.filterMap_cons_some hbuf, List.map_cons, List.map_cons, hbuf]
      exact congrArg (some buf :: ·) (ih fun c' hc' => hcs c' (List.mem_cons_of_mem _ hc'))
  have heq := List.getElem_of_eq (hmap h) (i := k) (by rwa [List.length_map])
  rw [List.getElem_map, List.getElem_map] at heq
  exact heq.symm

/-- The stores of `mark_eos` leave the end-of-segment frame in fresh memory. -/
theorem load_eosStores (base : OffsetPair) :
    load (written (fun _ => 0) (eosStores base)) base.data headerSize = eosFrame := by
  have hwritten : written (fun _ => 0) (eosStores base) =
      store (fun _ => 0) base.data (le16 headerFlagsEos ++ [headerVersion, headerPad] ++
        le32 headerSize) :=
    store_header_head
  have hinit := load_store_init (m := fun _ => (0 : UInt8)) (a := base.data) (n := 8) (r := [])
    (l := le16 headerFlagsEos ++ [headerVersion, headerPad] ++ le32 headerSize) rfl
  rw [List.append_nil] at hinit
  -- the checksum is left as it was
  have hcrc : load (store (fun _ => (0 : UInt8)) base.data
      (le16 headerFlagsEos ++ [headerVersion, headerPad] ++ le32 headerSize)) (base.data + 8) 4 =
        le32 0 :=
    (load_congr fun p hlo _ => store_of_ge hlo).trans rfl
  calc load (written (fun _ => 0) (eosStores base)) base.data (8 + 4)
      = le16 headerFlagsEos ++ [headerVersion, headerPad] ++ le32 headerSize ++ le32 0 := by
        rw [hwritten, load_add, hinit, hcrc]
    _ = eosFrame := rfl

/-- The stores of a claim leave its bytes in fresh memory. -/
theorem Claim.load_stores (c : Claim) :
    load (written (fun _ => 0) c.stores) c.base.data c.size = c.bytes := by
  obtain ⟨k, base, frame⟩ := c
  cases frame with
  | none =>
    exact load_eosStores base
  | some buf =>
    have hwritten : written (fun _ => 0) (frameStores base buf) =
        store (fun _ => 0) base.data (Mqlog.frame buf) :=
      written_done (List.append_nil _) (Nat.zero_le 1) _
    show load (written (fun _ => 0) (frameStores base buf)) base.data (headerSize + buf.1.length) =
      Mqlog.frame buf
    rw [hwritten]
    have hinit := load_store_init (m := fun _ => (0 : UInt8)) (a := base.data) (r := [])
      (length_frame buf).symm
    rwa [List.append_nil] at hinit

/-! ## The claims lie one behind the other -/

/-- The segment without what threads change of it. -/
def Segment.cleared (sgm : Segment) : Segment :=
  { sgm with buffer := fun _ => 0, index := fun _ => 0, wOffset := ⟨0, 0⟩ }

/-- Each claim starts where the claims before it end, and the write offset is where the last one
    ends. -/
structure SerialInv (size : Nat) (fresh : Segment) (s : SegState) : Prop where
  claims : ClaimsInv s
  seals : SealInv size s
  offset : s.sgm.wOffset = ⟨(payloads s.claims).length, (image Claim.bytes s.claims).length⟩
  base : ∀ k (hk : k < s.claims.length),
    s.claims[k].base = ⟨(payloads (s.claims.take k)).length, start Claim.bytes s.claims k⟩
  cleared : s.sgm.cleared = fresh

namespace SerialInv

variable {size : Nat} {fresh : Segment} {s s' : SegState} {k : Nat}

/-- A step that makes no claim. -/
theorem same (h : SerialInv size fresh s) (hclaims : ClaimsInv s') (hseals : SealInv size s')
    (heq : s'.claims = s.claims) (hoffset : s'.sgm.wOffset = s.sgm.wOffset)
    (hcleared : s'.sgm.cleared = s.sgm.cleared) : SerialInv size fresh s' where
  claims := hclaims
  seals := hseals
  offset := by
    rw [hoffset, heq]
    exact h.offset
  base := by
    simp only [heq]
    exact h.base
  cleared := hcleared.trans h.cleared

/-- A step that makes a claim at the write offset. -/
theorem claimed (h : SerialInv size fresh s) {c : Claim} (hclaims : ClaimsInv (s.claimed k c))
    (hseals : SealInv size (s.claimed k c)) (hbase : c.base = s.sgm.wOffset)
    (hnew : c.new = ⟨c.next, c.stop⟩) : SerialInv size fresh (s.claimed k c) where
  claims := hclaims
  seals := hseals
  offset := by
    show c.new = ⟨(payloads (s.claims ++ [c])).length, (image Claim.bytes (s.claims ++ [c])).length⟩
    rw [hnew, c.next_eq, Claim.stop, hbase, h.offset, payloads_append, image_snoc,
      List.length_append, List.length_append, c.length_bytes]
  base := by
    intro j hj
    have hj' : j < (s.claims ++ [c]).length := hj
    show (s.claims ++ [c])[j].base =
      ⟨(payloads ((s.claims ++ [c]).take j)).length, start Claim.bytes (s.claims ++ [c]) j⟩
    rw [List.length_append, List.length_singleton] at hj'
    rw [start_append (Nat.lt_succ_iff.mp hj'),
      List.take_append_of_le_length (Nat.lt_succ_iff.mp hj')]
    rcases Nat.lt_or_ge j s.claims.length with hlt | hge
    · rw [List.getElem_append_left hlt]
      exact h.base j hlt
    · obtain rfl : j = s.claims.length := by omega
      simp only [List.getElem_append_right (Nat.le_refl _), Nat.sub_self, List.getElem_singleton]
      rw [hbase, h.offset, List.take_length, start_length]
  cleared := h.cleared

/-- A claim in a segment smaller than `2 ^ 32` does not wrap the write offset around. -/
theorem wrapsClaim_eq (h : SerialInv size fresh s) (hsmall : size < 2 ^ 32) {i : Nat × SegAct}
    (hstep : segStep s i = some s') : wrapsClaim s i = false := by
  obtain ⟨k, act⟩ := i
  rw [wrapsClaim]
  split
  · rename_i buf curr hact hk
    obtain rfl : act = .access := hact
    by_contra hwraps
    rw [Bool.not_eq_false, decide_eq_true_iff] at hwraps
    obtain ⟨rfl, hwraps⟩ := hwraps
    have hk' : s.threads[k]? = some (.claiming buf s.sgm.wOffset) := hk
    have hclaimed := h.seals.claimed hsmall hk'
    generalize hc : claimOf s.sgm k buf s.sgm.wOffset = c at hwraps hclaimed
    have hbase : c.base = s.sgm.wOffset := by rw [← hc, claimOf_base]
    have hstop : c.stop ≤ size :=
      Nat.le_trans (hclaimed.stop_le c (List.mem_append_right _ (List.mem_singleton_self c)))
        hclaimed.written_le
    -- there are fewer frames than bytes
    have hcount : (payloads s.claims).length ≤ (image Claim.bytes s.claims).length := by
      have hle : (payloads s.claims).length ≤ s.claims.length := List.length_filterMap_le ..
      have hbytes := mul_length_le_image (f := Claim.bytes) (m := 1) (fun c' => by
        have hlt := c'.base_lt_stop
        rw [Claim.stop] at hlt
        rw [c'.length_bytes]
        omega) s.claims
      omega
    have hnext : c.next ≤ c.base.index + 1 := by
      rw [Claim.next]
      split
      · exact Nat.le_refl _
      · exact Nat.le_succ _
    have hstart := c.base_lt_stop
    rw [hbase, h.offset] at hnext hstart
    simp only at hnext hstart
    rcases hwraps with hwraps | hwraps
    · omega
    · omega
  · rfl

/-- **The step lemma.** -/
theorem step (h : SerialInv size fresh s) (hsmall : size < 2 ^ 32) {i : Nat × SegAct}
    (hreads : readsSealed s i = false) (hstep : segStep s i = some s') :
    SerialInv size fresh s' := by
  have hwrap := h.wrapsClaim_eq hsmall hstep
  have hclaims := (h.claims.step hwrap hstep).1
  have hseals := h.seals.step hsmall hreads hstep
  obtain ⟨k, act⟩ := i
  rcases segStep_effect hstep with ⟨pc, hmoves⟩ | ⟨c, -, rfl⟩ | ⟨buf, -, -, rfl⟩ |
    ⟨buf, rfl, hk, rfl⟩ |
    ⟨c, st, rest, -, rfl⟩
  · exact h.same hclaims hseals hmoves.claims_eq (by rw [hmoves.sgm_eq]) (by rw [hmoves.sgm_eq])
  · exact h.same hclaims hseals rfl rfl rfl
  · exact h.same hclaims hseals rfl rfl rfl
  · simp only [wrapsClaim, hk, true_and, decide_eq_false_iff_not, not_or, Nat.not_le] at hwrap
    exact h.claimed hclaims hseals (claimOf_base ..) (Claim.new_eq hwrap.1 hwrap.2)
  · refine h.same hclaims hseals rfl (st.run_wOffset s.sgm) ?_
    cases st with
    | data pos bytes => rfl
    | index i physicalOffset => rfl

theorem init (n : Nat) {base flags : Nat} (h12 : headerSize ≤ size) :
    SerialInv size (Segment.fresh base size flags) (segInit (Segment.fresh base size flags) n) where
  claims :=
    have h := (PublishInv.init n base size).claims
    -- nothing of this is about the flags
    ⟨h.small, h.le, h.before, h.first, h.covers, h.clear, h.clear_index, h.storing, h.progress,
      h.entry⟩
  seals := .init n h12
  offset := rfl
  base k hk := absurd hk (Nat.not_lt_zero k)
  cleared := rfl

/-! ## When every store is made -/

/-- The bytes of the claims are those of the frames, and of the end-of-segment frame. -/
theorem image_eq (h : SerialInv size fresh s) : image Claim.bytes s.claims =
    image frame (payloads s.claims) ++ if s.sealed then eosFrame else [] :=
  image_bytes_sealed h.seals.last

/-- There is room for the end-of-segment frame behind the messages, or it is there. -/
theorem fits (h : SerialInv size fresh s) :
    (image frame (payloads s.claims)).length + headerSize ≤ size := by
  have hdata : s.sgm.wOffset.data = (image Claim.bytes s.claims).length := by rw [h.offset]
  rw [h.image_eq, List.length_append] at hdata
  cases hsealed : s.sealed with
  | false =>
    have hroom := h.seals.room hsealed
    rw [hsealed, if_neg Bool.false_ne_true, List.length_nil] at hdata
    omega
  | true =>
    have hwritten := h.seals.written_le
    rw [hsealed, if_pos rfl, length_eosFrame] at hdata
    omega

/-- **The claim of each payload** starts where the record of it does. -/
theorem claim_eq (h : SerialInv size fresh s) {k : Nat} (hk : k < (payloads s.claims).length) :
    ∃ c ∈ s.claims, c.frame = some (payloads s.claims)[k] ∧
      c.base = ⟨k, start frame (payloads s.claims) k⟩ := by
  obtain ⟨front, back, hsplit, hfront, hpayloads⟩ := exists_front h.seals.last
  have hlen := (image_bytes hfront).2
  have hk' : k < front.length := by rwa [← hlen, ← hpayloads]
  have hbase := h.base k (by rw [hsplit, List.length_append]; omega)
  have htake : ∀ c ∈ front.take k, c.frame ≠ none := fun c hc => hfront c (List.mem_of_mem_take hc)
  simp only [hsplit, List.getElem_append_left hk', List.take_append_of_le_length (Nat.le_of_lt hk'),
    start_append (Nat.le_of_lt hk')] at hbase
  refine ⟨front[k], ?_, ?_, ?_⟩
  · rw [hsplit]
    exact List.mem_append_left _ (List.getElem_mem hk')
  · simp only [hpayloads]
    exact frame_getElem hfront hk' _
  · rw [hbase, (image_bytes htake).2, List.length_take, Nat.min_eq_left (Nat.le_of_lt hk'), start,
      start, (image_bytes htake).1, payloads_take hfront, hpayloads]

/-- **The payload of each claim** has the number that the claim starts at. -/
theorem payload_eq (h : SerialInv size fresh s) {c : Claim} {buf : Buf} (hc : c ∈ s.claims)
    (hframe : c.frame = some buf) : (payloads s.claims)[c.base.index]? = some buf := by
  obtain ⟨k, hk, rfl⟩ := List.getElem_of_mem hc
  have hrest : payloads (s.claims[k] :: s.claims.drop (k + 1)) = buf ::
    payloads (s.claims.drop (k + 1)) :=
    List.filterMap_cons_some hframe
  have hpayloads : payloads s.claims =
      payloads (s.claims.take k) ++ buf :: payloads (s.claims.drop (k + 1)) := by
    rw [← hrest, ← List.drop_eq_getElem_cons hk, ← payloads_append, List.take_append_drop]
  rw [h.base k hk, hpayloads, List.getElem?_append_right (Nat.le_refl _), Nat.sub_self]
  rfl

/-- A claim whose stores are made has its bytes. -/
theorem load_bytes (h : SerialInv size fresh s) {c : Claim} (hc : c ∈ s.claims)
    (hleft : s.left c = []) :
    load s.sgm.buffer c.base.data c.size = c.bytes := by
  obtain ⟨done, hdone, hbytes⟩ := h.claims.progress c hc
  rw [hleft, List.append_nil] at hdone
  rw [← c.load_stores, ← hdone]
  exact load_congr fun p hlo hhi => hbytes p hlo hhi

/-- The index entry of a payload whose stores are made. -/
theorem index_eq (h : SerialInv size fresh s) {k : Nat} (hk : k < (payloads s.claims).length)
    (hleft : ∀ c ∈ s.claims, s.left c = []) :
    s.sgm.index k = start frame (payloads s.claims) k := by
  obtain ⟨c, hc, hframe, hbase⟩ := h.claim_eq hk
  have hentry := h.claims.entry c hc (by rw [hframe]; exact Option.some_ne_none _)
  rw [hleft c hc, if_pos rfl, hbase] at hentry
  exact hentry

/-- **A segment whose claims are all stored** holds their payloads. -/
theorem sgm_eq (h : SerialInv size fresh s) (hleft : ∀ c ∈ s.claims, s.left c = []) :
    s.sgm = fresh.holding (payloads s.claims) (if s.sealed then eosFrame else []) := by
  have hlength : s.sgm.wOffset.data = (image Claim.bytes s.claims).length := by rw [h.offset]
  have hbuffer : s.sgm.buffer = padded 0 (image Claim.bytes s.claims) := by
    refine eq_padded_of_load (load_image fun k hk => ?_) fun p hp => h.claims.clear p ?_
    · have hbytes := h.load_bytes (List.getElem_mem hk) (hleft _ (List.getElem_mem hk))
      rwa [h.base k hk, ← Claim.length_bytes] at hbytes
    · rw [hlength]
      exact hp
  have hindex : s.sgm.index = padded 0 (starts frame (payloads s.claims)) := by
    funext k
    rcases Nat.lt_or_ge k (payloads s.claims).length with hlt | hge
    · rw [padded_of_lt (by rwa [length_starts]), getElem_starts, h.index_eq hlt hleft]
    · rw [padded_of_ge (by rwa [length_starts])]
      refine h.claims.clear_index k ?_
      rw [h.offset]
      exact hge
  have hwOffset := h.offset
  rw [h.image_eq, List.length_append] at hwOffset
  rw [h.image_eq] at hbuffer
  -- the other fields are those of the segment that was opened
  calc s.sgm
      = { s.sgm.cleared with buffer := s.sgm.buffer, index := s.sgm.index, wOffset := s.sgm.wOffset } := rfl
    _ = { fresh with buffer := s.sgm.buffer, index := s.sgm.index, wOffset := s.sgm.wOffset } := by
      rw [h.cleared]
    _ = _ := by rw [hbuffer, hindex, hwOffset, Segment.holding]

/-- Once every store is done, the segment holds the payloads of the claims in their order. -/
theorem holds (h : SerialInv size fresh s) (hsmall : size < 2 ^ 32)
    (hleft : ∀ c ∈ s.claims, s.left c = []) :
    Holds s.sgm (payloads s.claims) (if s.sealed then eosFrame else []) := by
  have hsize : fresh.size = size := by
    rw [← h.cleared]
    exact h.seals.size_eq
  rw [h.sgm_eq hleft]
  refine .holding (by rw [hsize]; exact h.fits) (by rw [hsize]; exact hsmall) ?_
  split
  · exact .inr rfl
  · exact .inl rfl

end SerialInv

/-- Where no thread reads the write offset for a claim after the seal, no claim wraps it around. -/
theorem along_wrapsClaim {size : Nat} {fresh : Segment} (hsmall : size < 2 ^ 32) :
    ∀ {is : List (Nat × SegAct)} {s t : SegState}, SerialInv size fresh s →
      run segStep s is = some t →
      Along segStep (fun s i => readsSealed s i = false) s is →
      Along segStep (fun s i => wrapsClaim s i = false) s is
  | [], _, _, _, _, _ => trivial
  | _ :: _, _, _, h, hrun, ⟨hreads, hrest⟩ => by
    obtain ⟨s', hstep, hrun'⟩ := Lib.run_cons_eq_some.mp hrun
    exact Lib.along_cons (h.wrapsClaim_eq hsmall hstep) hstep
      (along_wrapsClaim hsmall (h.step hsmall hreads hstep) hrun' (hrest s' hstep))

/-- No thread has a store left to make. -/
def SegState.Quiet (s : SegState) : Prop :=
  ∀ (k : Nat) (c : Claim) (rest : List Store), s.threads[k]? = some (.storing c rest) → rest = []

theorem SegState.Quiet.left_eq {s : SegState} (h : s.Quiet) (c : Claim) : s.left c = [] := by
  rw [SegState.left]
  split
  · rename_i c' rest hk
    rw [h c.thread c' rest hk, ite_self]
  · rfl

/-- **Concurrent writers serialize**: in every interleaving of any number of threads in which no
    thread reads the write offset for a claim after the seal, as soon as no store is left to make,
    the segment holds the accepted payloads in the order of their claims, and nothing else.  A
    reader of a segment that was not opened with `SGM_RDCMT` is given each of them, and no reader is
    given anything behind them. -/
theorem writers_serialize {page : PageSize} {base size flags : Nat} {sgm : Segment}
    {files : SegmentFiles} (hopen : segmentOpen page .ok ⟨none, none⟩ base size flags =
      (0, some sgm, files))
    (hsmall : size < 2 ^ 32) {n : Nat} {is : List (Nat × SegAct)} {s : SegState}
    (hrun : run segStep (segInit sgm n) is = some s)
    (hreads : Along segStep (fun s i => readsSealed s i = false) (segInit sgm n) is)
    (hquiet : s.Quiet) :
    s.sgm = sgm.holding (payloads s.claims) (if s.sealed then eosFrame else []) ∧
      (image frame (payloads s.claims)).length + headerSize ≤ size ∧
      (flags &&& sgmRdcmt ≠ sgmRdcmt → ∀ i (hi : i < (payloads s.claims).length),
        Reads s.sgm i (payloads s.claims)[i]) ∧
      ∀ i, (payloads s.claims).length ≤ i → segmentRead s.sgm i = (ELNORD, ⟨none, none⟩) := by
  obtain ⟨h0, hmod, rfl, -⟩ := segmentOpen_new_size hopen
  have h4096 := page.le_of_mod h0 hmod
  have h12 : headerSize = 12 := rfl
  have hinv : SerialInv size (Segment.fresh base size flags) s := by
    refine Lib.run_invariant (I := SerialInv size (Segment.fresh base size flags)) ?_ is _ _ hreads
      (.init n (by omega)) hrun
    intro s i s' hok hinv hstep
    exact hinv.step hsmall hok hstep
  have hleft : ∀ c ∈ s.claims, s.left c = [] := fun c _ => hquiet.left_eq c
  have hholds := hinv.holds hsmall hleft
  refine ⟨hinv.sgm_eq hleft, hinv.fits, fun hflags i hi => ?_, fun i hi => ?_⟩
  · refine hholds.reads hi ?_
    have hsame : s.sgm.flags = flags := by
      rw [hinv.sgm_eq hleft]
      rfl
    rw [readBoundary, hsame, if_neg hflags]
    exact hholds.start_lt_written hi
  · exact segmentRead_unwritten (by rw [hholds.count]; exact hi)

/-- Two threads write at the same time, and the one that claims first is the last to store. -/
def writeTogether : List (Nat × SegAct) :=
  [(0, .write (oneByte 0x61)), (0, .access), (0, .access), (0, .access), (0, .access),
    (1, .write (oneByte 0x62))] ++ List.replicate 13 (1, .access) ++
    List.replicate 8 (0, .access)

theorem writers_serialize_of_two :
    ∃ s, run segStep (segInit (Segment.fresh 0 4096 sgmRddrt) 2) writeTogether = some s ∧
      payloads s.claims = [oneByte 0x61, oneByte 0x62] ∧
      s.sgm = (Segment.fresh 0 4096 sgmRddrt).holding (payloads s.claims)
        (if s.sealed then eosFrame else []) := by
  have hopen : segmentOpen page4096 .ok ⟨none, none⟩ 0 4096 sgmRddrt =
      (0, some (Segment.fresh 0 4096 sgmRddrt), _) := segmentOpen_new 0 _ (by decide) (by decide)
  have hruns : (run segStep (segInit (Segment.fresh 0 4096 sgmRddrt) 2) writeTogether).map
      (fun s => (s.threads, payloads s.claims)) =
        some ([.idle, .idle], [oneByte 0x61, oneByte 0x62]) := by decide +kernel
  obtain ⟨s, hrun, hs⟩ := Option.map_eq_some_iff.mp hruns
  obtain ⟨hthreads, hpayloads⟩ := Prod.mk.inj hs
  have hquiet : s.Quiet := by
    intro k c rest hk
    rw [hthreads] at hk
    have hmem := List.mem_of_getElem? hk
    simp only [List.mem_cons, List.not_mem_nil, or_false, reduceCtorEq] at hmem
  exact ⟨s, hrun, hpayloads,
    (writers_serialize hopen (by decide) hrun (by decide +kernel) hquiet).1⟩

end Mqlog
