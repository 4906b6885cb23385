/-
  The bytes that the stores of a claim leave behind, after any number of them.

  A frame is stored in such an order that its flags are the last of its bytes: while a store to the
  data file is left, the flags in fresh memory are not `HEADER_FLAGS_READY` (`ready_of_flags`), and
  when none is left the bytes are those of the frame (`written_done`).  The flags of an
  end-of-segment frame are never `HEADER_FLAGS_READY`.

  The stores are functions on the data file and on the index file (`Store.bytes`, `Store.entries`),
  and `written` is several of them, one after the other.  There are three kinds of facts.

    1. Where the stores are.  All of them lie within the claim (`within_unready`,
       `within_eosStores`), but for the index entry, which is the last one of a frame
       (`Claim.next_store`).
    2. The flags.  The stores in front of them leave them empty (`leavesFlags_unready`): those of
       the payload lie behind the header, and `header_init` stores `HEADER_FLAGS_EMPTY`.
    3. The whole frame.  The fields are stored in another order than they stand in, so the bytes are
       compared field by field with those of `frame` (`written_done`).

  No thread occurs here.  A claim is a list of stores, and what other threads do in between is about
  other bytes.
-/
import Mqlog.SegmentThreads

namespace Mqlog

open Lib.Mem

/-- The data file after a store. -/
def Store.bytes (m : Nat → UInt8) : Store → Nat → UInt8
  | .data pos bytes => store m pos bytes
  | .index _ _ => m

/-- The data file after several stores. -/
def written (m : Nat → UInt8) (l : List Store) : Nat → UInt8 := l.foldl Store.bytes m

/-- The index file after a store. -/
def Store.entries (f : Nat → Nat) : Store → Nat → Nat
  | .data _ _ => f
  | .index i physicalOffset => store f i [physicalOffset]

@[simp] theorem Store.run_buffer (st : Store) (sgm : Segment) :
    (st.run sgm).buffer = st.bytes sgm.buffer := by
  cases st <;> rfl

@[simp] theorem Store.run_index (st : Store) (sgm : Segment) :
    (st.run sgm).index = st.entries sgm.index := by
  cases st <;> rfl

@[simp] theorem Store.run_wOffset (st : Store) (sgm : Segment) :
    (st.run sgm).wOffset = sgm.wOffset := by
  cases st <;> rfl

@[simp] theorem written_nil (m : Nat → UInt8) : written m [] = m := rfl

@[simp] theorem written_cons (m : Nat → UInt8) (st : Store) (l : List Store) :
    written m (st :: l) = written (st.bytes m) l := rfl

/-- Stores one after the other. -/
theorem written_append (m : Nat → UInt8) (l l' : List Store) :
    written m (l ++ l') = written (written m l) l' := List.foldl_append

/-- A store acts on each position by itself. -/
theorem Store.bytes_congr {m m' : Nat → UInt8} (st : Store) {p : Nat} (h : m p = m' p) :
    st.bytes m p = st.bytes m' p := by
  cases st with
  | data pos bytes =>
    show store m pos bytes p = store m' pos bytes p
    rw [store, store, h]
  | index i physicalOffset => exact h

/-! ## Where the stores are -/

/-- The store is one to the data file, between `a` and `b`. -/
def Store.Within (a b : Nat) : Store → Prop
  | .data pos bytes => a ≤ pos ∧ pos + bytes.length ≤ b
  | .index _ _ => False

/-- A store within a range leaves the bytes outside alone. -/
theorem Store.bytes_of_within {a b p : Nat} {st : Store} (h : st.Within a b) (hp : p < a ∨ b ≤ p)
    (m : Nat → UInt8) : st.bytes m p = m p := by
  cases st with
  | data pos bytes =>
    obtain ⟨hlo, hhi⟩ := h
    rcases hp with hp | hp
    · exact store_of_lt (by omega)
    · exact store_of_ge (by omega)
  | index i physicalOffset => exact absurd h id

/-- A store to the data leaves the index alone. -/
theorem Store.entries_of_within {a b : Nat} {st : Store} (h : st.Within a b) (f : Nat → Nat) :
    st.entries f = f := by
  cases st with
  | data pos bytes => rfl
  | index i physicalOffset => exact absurd h id

/-- `memcpy` stores where the payload goes. -/
theorem within_memcpyStores : ∀ (l : List UInt8) {pos : Nat} {st : Store}, st ∈ memcpyStores pos l →
    st.Within pos (pos + l.length)
  | [], _, _, h => absurd h List.not_mem_nil
  | c :: l, pos, st, h => by
    rcases List.mem_cons.mp h with rfl | h
    · exact ⟨Nat.le_refl _, Nat.add_le_add_left (Nat.le_add_left 1 _) _⟩
    · have hrest := within_memcpyStores l h
      cases st with
      | data pos' bytes =>
        obtain ⟨hlo, hhi⟩ := hrest
        refine ⟨by omega, ?_⟩
        rw [List.length_cons]
        omega
      | index i physicalOffset => exact hrest

/-- `header_init` stores in the header. -/
theorem within_headerInitStores {hdr b : Nat} (hb : hdr + 4 ≤ b) {st : Store}
    (h : st ∈ headerInitStores hdr) : st.Within hdr b := by
  simp only [headerInitStores, List.mem_cons, List.not_mem_nil, or_false] at h
  rcases h with rfl | rfl | rfl
  · exact ⟨Nat.le_refl _, by rw [length_le16]; omega⟩
  · exact ⟨by omega, by rw [List.length_singleton]; omega⟩
  · exact ⟨by omega, by rw [List.length_singleton]; omega⟩

/-- The stores of a frame before its flags. -/
def unready (curr : OffsetPair) (buf : Buf) : List Store :=
  memcpyStores (curr.data + headerSize) buf.1 ++ headerInitStores curr.data ++
    [.data (curr.data + 8) (le32 (crc32 0 buf.1).toNat),
      .data (curr.data + 4) (le32 ((headerSize + buf.1.length) % 2 ^ 64))]

/-- The flags are stored behind all other bytes, and the index entry behind the flags. -/
theorem frameStores_eq (curr : OffsetPair) (buf : Buf) :
    frameStores curr buf = unready curr buf ++
      [.data curr.data (le16 headerFlagsReady), .index curr.index curr.data] := by
  rw [frameStores, unready, List.append_assoc _ [Store.data _ _, Store.data _ _]]
  rfl

/-- The stores in front of the flags are within the claim. -/
theorem within_unready {curr : OffsetPair} {buf : Buf} {st : Store} (h : st ∈ unready curr buf) :
    st.Within curr.data (curr.data + (headerSize + buf.1.length)) := by
  have h12 : headerSize = 12 := rfl
  rcases List.mem_append.mp h with h | h
  · rcases List.mem_append.mp h with h | h
    · have hmem := within_memcpyStores _ h
      cases st with
      | data pos bytes => exact ⟨by have := hmem.1; omega, by have := hmem.2; omega⟩
      | index i physicalOffset => exact hmem
    · exact within_headerInitStores (by omega) h
  · simp only [List.mem_cons, List.not_mem_nil, or_false] at h
    rcases h with rfl | rfl
    · exact ⟨by omega, by rw [length_le32]; omega⟩
    · exact ⟨by omega, by rw [length_le32]; omega⟩

/-- The stores of an end-of-segment frame are within the claim. -/
theorem within_eosStores {curr : OffsetPair} {st : Store} (h : st ∈ eosStores curr) :
    st.Within curr.data (curr.data + headerSize) := by
  have h12 : headerSize = 12 := rfl
  rcases List.mem_append.mp h with h | h
  · exact within_headerInitStores (by omega) h
  · simp only [List.mem_cons, List.not_mem_nil, or_false] at h
    rcases h with rfl | rfl
    · exact ⟨Nat.le_add_right _ 4, by rw [length_le32]; omega⟩
    · exact ⟨Nat.le_refl _, by rw [length_le16]; omega⟩

/-- The stores of a frame to the data file. -/
theorem frameStores_concat (curr : OffsetPair) (buf : Buf) :
    frameStores curr buf = (unready curr buf ++ [.data curr.data (le16 headerFlagsReady)]) ++
      [.index curr.index curr.data] := by
  rw [frameStores_eq, List.append_assoc]
  rfl

/-- **The next store of a claim** is one to the claimed bytes, or, when it is the last one of a
    frame, the index entry. -/
theorem Claim.next_store {c : Claim} {done rest : List Store} {st : Store}
    (h : done ++ st :: rest = c.stores) :
    st.Within c.base.data c.stop ∧ (c.frame ≠ none → rest ≠ []) ∨
    c.frame ≠ none ∧ st = .index c.base.index c.base.data ∧ rest = [] := by
  have h12 : headerSize = 12 := rfl
  obtain ⟨k, base, frame⟩ := c
  cases frame with
  | none =>
    have hmem : st ∈ eosStores base := by
      show st ∈ (⟨k, base, none⟩ : Claim).stores
      rw [← h]
      exact List.mem_append_right _ List.mem_cons_self
    exact .inl ⟨within_eosStores hmem, fun hne => absurd rfl hne⟩
  | some buf =>
    have hstores : done ++ st :: rest = (unready base buf ++
        [.data base.data (le16 headerFlagsReady)]) ++ [.index base.index base.data] :=
      h.trans (frameStores_concat base buf)
    rcases List.eq_nil_or_concat rest with rfl | ⟨init, last, rfl⟩
    · obtain ⟨-, heq⟩ := List.append_inj' hstores rfl
      exact .inr ⟨Option.some_ne_none buf, (List.cons.inj heq).1, rfl⟩
    · left
      rw [List.concat_eq_append] at hstores ⊢
      have hstores' : (done ++ st :: init) ++ [last] = _ := (List.append_assoc ..).trans hstores
      obtain ⟨hfront, -⟩ := List.append_inj' hstores' rfl
      refine ⟨?_, fun _ => List.append_ne_nil_of_right_ne_nil _ (List.cons_ne_nil _ _)⟩
      show st.Within base.data (base.data + (headerSize + buf.1.length))
      have hmem : st ∈ unready base buf ++ [.data base.data (le16 headerFlagsReady)] := by
        rw [← hfront]
        exact List.mem_append_right _ List.mem_cons_self
      rcases List.mem_append.mp hmem with hmem | hmem
      · exact within_unready hmem
      · rw [List.mem_singleton.mp hmem]
        exact ⟨Nat.le_refl _, by rw [length_le16]; omega⟩

/-! ## The flags come last -/

/-- The store does not make flags at `hdr` that are not empty. -/
def Store.LeavesFlags (hdr : Nat) : Store → Prop
  | .data pos bytes => hdr + 2 ≤ pos ∨ (pos = hdr ∧ bytes = le16 headerFlagsEmpty)
  | .index _ _ => True

/-- The flags stay empty as long as no store is about them. -/
theorem hdrFlags_written {hdr : Nat} : ∀ (l : List Store) {m : Nat → UInt8},
    (∀ st ∈ l, st.LeavesFlags hdr) → hdrFlags m hdr = headerFlagsEmpty →
      hdrFlags (written m l) hdr = headerFlagsEmpty
  | [], _, _, hm => hm
  | st :: l, m, h, hm => by
    refine hdrFlags_written l (fun st' hst' => h st' (List.mem_cons_of_mem _ hst')) ?_
    have hst := h st List.mem_cons_self
    cases st with
    | data pos bytes =>
      rcases hst with hpos | ⟨rfl, rfl⟩
      · rw [← hm]
        exact get16_congr fun i hi => store_of_lt (by omega)
      · refine get16_of_load ?_ (by decide)
        have hload :=
          load_store_init (m := m) (a := pos) (r := []) (length_le16 headerFlagsEmpty).symm
        rw [List.append_nil] at hload
        exact hload
    | index i physicalOffset => exact hm

/-- `header_init` empties the flags. -/
theorem leavesFlags_headerInitStores {hdr : Nat} {st : Store} (h : st ∈ headerInitStores hdr) :
    st.LeavesFlags hdr := by
  simp only [headerInitStores, List.mem_cons, List.not_mem_nil, or_false] at h
  rcases h with rfl | rfl | rfl
  · exact .inr ⟨rfl, rfl⟩
  · exact .inl (Nat.le_refl _)
  · exact .inl (by show hdr + 2 ≤ hdr + 3; omega)

/-- The stores in front of the flags leave them empty. -/
theorem leavesFlags_unready {curr : OffsetPair} {buf : Buf} {st : Store}
    (h : st ∈ unready curr buf) :
    st.LeavesFlags curr.data := by
  have h12 : headerSize = 12 := rfl
  rcases List.mem_append.mp h with h | h
  · rcases List.mem_append.mp h with h | h
    · have hmem := within_memcpyStores _ h
      cases st with
      | data pos bytes => exact .inl (by have := hmem.1; omega)
      | index i physicalOffset => exact trivial
    · exact leavesFlags_headerInitStores h
  · simp only [List.mem_cons, List.not_mem_nil, or_false] at h
    rcases h with rfl | rfl
    · exact .inl (by show curr.data + 2 ≤ curr.data + 8; omega)
    · exact .inl (by show curr.data + 2 ≤ curr.data + 4; omega)

/-- The stores in front, when the list is cut behind them at the earliest. -/
theorem subset_of_append_eq {α : Type} {done rest pre post : List α}
    (h : done ++ rest = pre ++ post) (hlen : post.length ≤ rest.length) : done ⊆ pre := by
  have hle : done.length ≤ pre.length := by
    have hcount := congrArg List.length h
    rw [List.length_append, List.length_append] at hcount
    omega
  have hprefix : done <+: pre :=
    List.prefix_of_prefix_length_le ⟨rest, h⟩ (List.prefix_append _ _) hle
  exact hprefix.subset

/-- **The flags of a frame are ready only when all of its bytes are stored.** -/
theorem ready_of_flags {curr : OffsetPair} {buf : Buf} {done rest : List Store}
    (h : done ++ rest = frameStores curr buf)
    (hflags : hdrFlags (written (fun _ => 0) done) curr.data = headerFlagsReady) :
    rest.length ≤ 1 := by
  by_contra hlen
  rw [frameStores_eq] at h
  have hsub := subset_of_append_eq h (by rw [List.length_cons, List.length_singleton]; omega)
  rw [hdrFlags_written done (fun st hst => leavesFlags_unready (hsub hst)) rfl] at hflags
  exact absurd hflags (by decide)

/-- The flags of an end-of-segment frame are never ready. -/
theorem flags_ne_ready {curr : OffsetPair} {done rest : List Store}
    (h : done ++ rest = eosStores curr) :
    hdrFlags (written (fun _ => 0) done) curr.data ≠ headerFlagsReady := by
  have heos : eosStores curr = (headerInitStores curr.data ++
      [.data (curr.data + 4) (le32 headerSize)]) ++ [.data curr.data (le16 headerFlagsEos)] := by
    rw [eosStores, List.append_assoc]
    rfl
  have hleaves : ∀ st ∈ headerInitStores curr.data ++ [.data (curr.data + 4) (le32 headerSize)],
      st.LeavesFlags curr.data := by
    intro st hst
    rcases List.mem_append.mp hst with hst | hst
    · exact leavesFlags_headerInitStores hst
    · rw [List.mem_singleton.mp hst]
      exact .inl (by omega)
  rw [heos] at h
  rcases List.eq_nil_or_concat rest with rfl | ⟨init, st, rfl⟩
  · rw [List.append_nil] at h
    rw [h, written_append]
    have hload : hdrFlags (store (written (fun _ => 0) (headerInitStores curr.data ++
        [.data (curr.data + 4) (le32 headerSize)])) curr.data (le16 headerFlagsEos ++ []))
          curr.data =
      headerFlagsEos :=
        get16_of_load (load_store_init (length_le16 headerFlagsEos).symm) (by decide)
    rw [List.append_nil] at hload
    intro hready
    exact absurd (hload.symm.trans hready) (by decide)
  · have hsub := subset_of_append_eq h (by rw [List.length_singleton, List.concat_eq_append,
      List.length_append, List.length_singleton]; omega)
    rw [hdrFlags_written done (fun st hst => hleaves st (hsub hst)) rfl]
    decide

/-! ## The whole frame -/

/-- `memcpy` stores the payload. -/
theorem written_memcpyStores : ∀ (l : List UInt8) (m : Nat → UInt8) (pos : Nat),
    written m (memcpyStores pos l) = store m pos l
  | [], m, pos => (store_nil m pos).symm
  | c :: l, m, pos => by
    rw [memcpyStores, written_cons, written_memcpyStores l, Store.bytes,
      store_append (by rw [List.length_singleton])]
    rfl

/-- **A frame of which at most the index entry is missing** is stored whole. -/
theorem written_done {curr : OffsetPair} {buf : Buf} {done rest : List Store}
    (h : done ++ rest = frameStores curr buf) (hrest : rest.length ≤ 1) (m : Nat → UInt8) :
    written m done = store m curr.data (frame buf) := by
  have hlen := buf.2
  have h12 : headerSize = 12 := rfl
  have hframe : (headerSize + buf.1.length) % 2 ^ 64 = headerSize + buf.1.length :=
    Nat.mod_eq_of_lt (by omega)
  -- the last store is not one to the data file
  have hdone : written m done = written m (frameStores curr buf) := by
    rcases rest with _ | ⟨st, _ | ⟨st', rest⟩⟩
    · rw [← h, List.append_nil]
    · rw [← h, written_append]
      obtain ⟨-, heq⟩ := List.append_inj' (h.trans (frameStores_concat curr buf)) rfl
      rw [heq]
      rfl
    · rw [List.length_cons, List.length_cons] at hrest
      omega
  rw [hdone, frameStores, written_append, written_append, written_memcpyStores, hframe]
  -- the payload is stored before its header
  show setFlags (setSize (setCrc32 (headerInit (store m (curr.data + headerSize) buf.1) curr.data)
    curr.data (crc32 0 buf.1).toNat) curr.data (headerSize + buf.1.length)) curr.data
      headerFlagsReady = _
  rw [store_header, store_comm (Or.inr (by rw [length_headerBytes])),
    store_append (by rw [length_headerBytes]), frame]

end Mqlog
