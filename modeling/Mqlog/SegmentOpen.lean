/-
  Opening a segment: what `find_w_offset_pair` recovers, and what `segment_open` makes of the two
  files of a segment.

  The scan of the index stops at its first free entry (`findFrom_eq`).  An entry is free when it is
  zero; entry 0 is zero in a written segment as well, since position 0 is where the first frame
  starts, and there a header in the data decides.  The write offset is then the position of the last
  used entry plus the size in the header found there.

    1. Sizes.  `calculate_index_size` gives the index file a number of bytes, and `indexCapacity` is
       the number of entries that fit into it.  A page has room for more than one.
    2. The scan.  `Free` is the condition at which it stops, so that it has two outcomes: the first
       free entry (`findFrom_eq`), or nothing, where all entries are used (`findFrom_none`).
    3. `segment_open` for the three kinds of files that it meets: none (`segmentOpen_new`), those of
       a segment whose index has a free entry (`segmentOpen_files`), and those of one whose index
       has none, which it fails on (`segmentOpen_full`).

  Besides, the invariant of a segment meets the scan here: of a segment that holds messages the scan
  finds the write offset again, when the index file has a free entry (`Holds.findWOffsetPair_eq`).
-/
import Mqlog.SegmentHolds

namespace Mqlog

open Lib.Mem Lib.Records

/-! ## Sizes -/

/-- The page of most machines. -/
def page4096 : PageSize := ⟨4096, 12, by decide⟩

theorem PageSize.le_of_mod (page : PageSize) {size : Nat} (h0 : 0 < size)
    (hmod : size % page.bytes = 0) : 4096 ≤ size := by
  obtain ⟨k, hk, -, hbytes⟩ := page.pow
  have hpow : 2 ^ 12 ≤ page.bytes := hbytes ▸ Nat.pow_le_pow_right (by decide) hk
  have hle : page.bytes ≤ size := Nat.le_of_dvd h0 (Nat.dvd_of_mod_eq_zero hmod)
  omega

theorem calculateIndexSize_pos {size : Nat} (h : headerSize ≤ size) : 0 < calculateIndexSize size :=
  Nat.div_pos (Nat.le_succ_of_le h) (by decide)

/-- The number of entries that the index file has room for. -/
def indexCapacity (size : Nat) : Nat := calculateIndexSize size / indexEntrySize

theorem indexCapacity_lt {size : Nat} (h : size < 2 ^ 32) : indexCapacity size < 2 ^ 26 := by
  have h12 : headerSize = 12 := rfl
  have h8 : indexEntrySize = 8 := rfl
  rw [indexCapacity, calculateIndexSize, h12, h8]
  omega

theorem two_le_indexCapacity {size : Nat} (h : 4096 ≤ size) : 2 ≤ indexCapacity size := by
  have h12 : headerSize = 12 := rfl
  have h8 : indexEntrySize = 8 := rfl
  rw [indexCapacity, calculateIndexSize, h12, h8]
  omega

/-- A slot lies inside the index file when its last byte does. -/
theorem slot_inside_iff {size i : Nat} :
    (i + 1) * indexEntrySize ≤ calculateIndexSize size ↔ i < indexCapacity size := by
  rw [indexCapacity, ← Nat.succ_le_iff, Nat.le_div_iff_mul_le (by decide)]

/-! ## The scan of the index -/

/-- The scan of `find_w_offset_pair` stops at this entry. -/
def Free (buffer : Nat → UInt8) (index : Nat → Nat) (i : Nat) : Prop :=
  index i = 0 ∧ ¬ (i = 0 ∧ protIsHeader buffer 0)

/-- The scan stops at the first free entry. -/
theorem findFrom_eq {buffer : Nat → UInt8} {index : Nat → Nat} {i : Nat} :
    ∀ (r s prev : Nat), s ≤ i → i < s + r → (∀ j, s ≤ j → j < i → ¬ Free buffer index j) →
      Free buffer index i →
      findFrom buffer index r s prev =
        let prev := if i = s then prev else index (i - 1)
        some ⟨i % 2 ^ 32, (prev + if i ≠ 0 then hdrSize buffer prev else 0) % 2 ^ 32⟩ := by
  intro r
  induction r with
  | zero => intro s prev hs hi; omega
  | succ r ih =>
    intro s prev hs hi hused hfree
    rw [findFrom]
    rcases Nat.lt_or_ge s i with hlt | hge
    · have hs' : ¬ (index s = 0 ∧ ¬ (s = 0 ∧ protIsHeader buffer 0)) := hused s (Nat.le_refl s) hlt
      rw [if_neg hs', ih (s + 1) (index s) hlt (by omega) (fun j hj => hused j (by omega)) hfree,
        if_neg (show i ≠ s by omega)]
      rcases Nat.lt_or_ge (s + 1) i with hlt' | hge'
      · rw [if_neg (by omega)]
      · have hsucc : i = s + 1 := by omega
        rw [if_pos hsucc, hsucc, Nat.add_sub_cancel]
    · have heq : i = s := by omega
      subst heq
      have hs' : index i = 0 ∧ ¬ (i = 0 ∧ protIsHeader buffer 0) := hfree
      rw [if_pos hs', if_pos rfl]

/-- An index that begins with a free entry belongs to an empty segment. -/
theorem findWOffsetPair_empty {buffer : Nat → UInt8} {index : Nat → Nat} {size : Nat}
    (hsize : 0 < size / indexEntrySize) (hfree : Free buffer index 0) :
    findWOffsetPair buffer index size = some ⟨0, 0⟩ := by
  rw [findWOffsetPair, findFrom_eq (i := 0) _ 0 0 (Nat.le_refl 0) (by omega)
    (fun j _ hj => absurd hj (Nat.not_lt_zero j)) hfree]
  rfl

theorem findWOffsetPair_eq {buffer : Nat → UInt8} {index : Nat → Nat} {n i : Nat} (hi : 0 < i)
    (hsize : i < n / indexEntrySize) (hused : ∀ j, j < i → ¬ Free buffer index j)
    (hfree : index i = 0) :
    findWOffsetPair buffer index n =
      some ⟨i % 2 ^ 32, (index (i - 1) + hdrSize buffer (index (i - 1))) % 2 ^ 32⟩ := by
  have hne : i ≠ 0 := Nat.ne_of_gt hi
  rw [findWOffsetPair, findFrom_eq (i := i) _ 0 0 (Nat.zero_le i) (by omega)
    (fun j _ hj => hused j hj) ⟨hfree, fun h => hne h.1⟩]
  simp only [if_neg hne, if_pos hne]

/-- Without a free entry the scan finds nothing. -/
theorem findFrom_none {buffer : Nat → UInt8} {index : Nat → Nat} :
    ∀ (r s prev : Nat), (∀ j, s ≤ j → j < s + r → ¬ Free buffer index j) →
      findFrom buffer index r s prev = none := by
  intro r
  induction r with
  | zero => exact fun _ _ _ => rfl
  | succ r ih =>
    intro s prev hused
    have hs : ¬ (index s = 0 ∧ ¬ (s = 0 ∧ protIsHeader buffer 0)) :=
      hused s (Nat.le_refl s) (by omega)
    rw [findFrom, if_neg hs]
    exact ih (s + 1) (index s) fun j hj hlt => hused j (by omega) (by omega)

/-- The entries of stored messages are used. -/
theorem used_of_stored {m : Nat → UInt8} {t : Nat → Nat} {ps : List Buf} (h : Stored frame m t ps)
    {k : Nat} (hk : k < ps.length) : ¬ Free m t k := by
  intro hfree
  by_cases h0 : k = 0
  · subst h0
    refine hfree.2 ⟨rfl, ?_⟩
    have hhdr := (stored_message h hk).1
    rw [start_zero] at hhdr
    rw [protIsHeader, hhdr.flags_eq (by decide)]
    rfl
  · have hpos := start_pos hk h0
    rw [← h.table k hk, hfree.1] at hpos
    omega

/-- The write offset behind stored messages, when the next entry is free. -/
theorem findWOffsetPair_stored {m : Nat → UInt8} {t : Nat → Nat} {ps : List Buf} {size : Nat}
    (h : Stored frame m t ps) (hsize : ps.length < size / indexEntrySize)
    (hfree : Free m t ps.length) (hsmall : (image frame ps).length < 2 ^ 32) :
    findWOffsetPair m t size = some ⟨ps.length, (image frame ps).length⟩ := by
  rcases List.eq_nil_or_concat ps with rfl | ⟨qs, p, rfl⟩
  · exact findWOffsetPair_empty hsize hfree
  · rw [List.concat_eq_append] at *
    have hlen : (qs ++ [p]).length = qs.length + 1 := List.length_append
    have hk : qs.length < (qs ++ [p]).length := by omega
    have himage := length_image_snoc qs p
    have hcount : 12 * (qs ++ [p]).length ≤ (image frame (qs ++ [p])).length :=
      mul_length_le_image headerSize_le_frame (qs ++ [p])
    have h12 : headerSize = 12 := rfl
    have hhdr := (stored_message h hk).1
    have hstart : start frame (qs ++ [p]) qs.length = (image frame qs).length := by
      rw [start_append (Nat.le_refl _), start_length]
    rw [List.getElem_append_right (Nat.le_refl _)] at hhdr
    simp only [Nat.sub_self, List.getElem_singleton] at hhdr
    rw [findWOffsetPair_eq (by omega) hsize (fun j hj => used_of_stored h hj) hfree.1, hlen,
      Nat.add_sub_cancel, h.table _ hk, hhdr.size_eq (by omega), hstart, himage,
      Nat.mod_eq_of_lt (by omega), Nat.mod_eq_of_lt (by omega), Nat.add_assoc]

/-! ## `segment_open` -/

/-- The segment that `segment_open` makes of new files. -/
def Segment.fresh (baseOffset size flags : Nat) : Segment where
  flags := flags
  size := size
  baseOffset := baseOffset
  buffer := fun _ => 0
  index := fun _ => 0
  sOffset := ⟨0, 0⟩
  wOffset := ⟨0, 0⟩
  dataDisk := fun _ => 0
  indexDisk := fun _ => 0

/-- The segment that `segment_open` makes of existing files. -/
def Segment.reopened (baseOffset size flags : Nat) (data : Nat → UInt8) (index : Nat → Nat)
    (wOffset : OffsetPair) : Segment where
  flags := flags
  size := size
  baseOffset := baseOffset
  buffer := data
  index := index
  sOffset := wOffset
  wOffset := wOffset
  dataDisk := data
  indexDisk := index

/-- The files of a segment. -/
def segmentFiles (size : Nat) (data : Nat → UInt8) (index : Nat → Nat) : SegmentFiles :=
  ⟨some ⟨size, data⟩, some ⟨calculateIndexSize size, index⟩⟩

theorem openFile_new {α : Type} (zero : α) (size : Nat) :
    openFile zero .ok size none = (some ⟨size, fun _ => zero⟩, .ok ⟨size, fun _ => zero⟩) := rfl

theorem openFile_existing {α : Type} (zero : α) {size : Nat} (h0 : 0 < size) (cell : Nat → α) :
    openFile zero .ok size (some ⟨size, cell⟩) = (some ⟨size, cell⟩, .ok ⟨size, cell⟩) := by
  simp only [openFile, Option.getD_some, ne_eq, not_true_eq_false, and_false, if_false,
    if_neg (Nat.ne_of_gt h0)]

theorem mmapHelper_ok {size : Nat} (h0 : 0 < size) : mmapHelper .ok size = 0 :=
  if_neg (Nat.ne_of_gt h0)

section Open

variable {page : PageSize} (baseOffset : Nat) {size : Nat} (flags : Nat)

theorem segmentOpen_files (h0 : 0 < size) (hmod : size % page.bytes = 0) {data : Nat → UInt8}
    {index : Nat → Nat} {wOffset : OffsetPair}
    (hw : findWOffsetPair data index (calculateIndexSize size) = some wOffset) :
    segmentOpen page .ok (segmentFiles size data index) baseOffset size flags =
      (0, some (Segment.reopened baseOffset size flags data index wOffset),
        segmentFiles size data index) := by
  have h4096 := page.le_of_mod h0 hmod
  have h12 : headerSize = 12 := rfl
  have hidx := calculateIndexSize_pos (show headerSize ≤ size by omega)
  rw [segmentOpen, if_neg (not_not.mpr hmod), if_neg (by decide)]
  simp only [segmentFiles, OpenCalls.ok, openFile_existing _ hidx, openFile_existing _ h0,
    mmapHelper_ok hidx, mmapHelper_ok h0, hw, ne_eq, not_true_eq_false, if_false]
  rfl

/-- A segment whose index file has no free entry does not open. -/
theorem segmentOpen_full (h0 : 0 < size) (hmod : size % page.bytes = 0) {data : Nat → UInt8}
    {index : Nat → Nat} (hw : findWOffsetPair data index (calculateIndexSize size) = none) :
    segmentOpen page .ok (segmentFiles size data index) baseOffset size flags =
      (ELWOFFS, none, segmentFiles size data index) := by
  have h4096 := page.le_of_mod h0 hmod
  have h12 : headerSize = 12 := rfl
  have hidx := calculateIndexSize_pos (show headerSize ≤ size by omega)
  rw [segmentOpen, if_neg (not_not.mpr hmod), if_neg (by decide)]
  simp only [segmentFiles, OpenCalls.ok, openFile_existing _ hidx, openFile_existing _ h0,
    mmapHelper_ok hidx, mmapHelper_ok h0, hw, ne_eq, not_true_eq_false, if_false]

theorem segmentOpen_new (h0 : 0 < size) (hmod : size % page.bytes = 0) :
    segmentOpen page .ok ⟨none, none⟩ baseOffset size flags =
      (0, some (Segment.fresh baseOffset size flags),
        segmentFiles size (fun _ => 0) fun _ => 0) := by
  have h4096 := page.le_of_mod h0 hmod
  have h12 : headerSize = 12 := rfl
  have hidx := calculateIndexSize_pos (show headerSize ≤ size by omega)
  have hcap : 0 < indexCapacity size := Nat.lt_of_lt_of_le (by decide) (two_le_indexCapacity h4096)
  have hw : findWOffsetPair (fun _ => 0) (fun _ => 0) (calculateIndexSize size) = some ⟨0, 0⟩ :=
    findWOffsetPair_empty hcap ⟨rfl, fun h => absurd h.2 (by decide)⟩
  rw [segmentOpen, if_neg (not_not.mpr hmod), if_neg (by decide)]
  simp only [OpenCalls.ok, openFile_new, mmapHelper_ok hidx, mmapHelper_ok h0, hw, ne_eq,
    not_true_eq_false, if_false]
  rfl

/-- A segment that could be created has a positive number of pages. -/
theorem segmentOpen_new_size {baseOffset flags : Nat} {sgm : Segment} {files : SegmentFiles}
    (h : segmentOpen page .ok ⟨none, none⟩ baseOffset size flags = (0, some sgm, files)) :
    0 < size ∧ size % page.bytes = 0 ∧ sgm = Segment.fresh baseOffset size flags ∧
      files = segmentFiles size (fun _ => 0) fun _ => 0 := by
  by_cases hmod : size % page.bytes = 0
  · rcases Nat.eq_zero_or_pos size with rfl | h0
    · rw [segmentOpen, if_neg (not_not.mpr hmod), if_neg (by decide)] at h
      cases h
    · rw [segmentOpen_new _ _ h0 hmod] at h
      obtain ⟨-, h⟩ := Prod.mk.inj h
      obtain ⟨hsgm, hfiles⟩ := Prod.mk.inj h
      exact ⟨h0, hmod, (Option.some.inj hsgm).symm, hfiles.symm⟩
  · rw [segmentOpen, if_pos hmod] at h
    cases h

end Open

/-- A new segment holds nothing. -/
theorem holds_fresh (baseOffset : Nat) {size : Nat} (flags : Nat) (h12 : headerSize ≤ size)
    (hsmall : size < 2 ^ 32) :
    Holds (Segment.fresh baseOffset size flags) [] [] where
  buffer := rfl
  index := rfl
  count := rfl
  le_written := Nat.le_refl _
  written_le := Nat.le_refl _
  tail_eq := .inl rfl
  fits := by rwa [image_nil, List.length_nil, Nat.zero_add]
  small := hsmall

/-- **The write offset is found again** as long as the index file has a free entry. -/
theorem Holds.findWOffsetPair_eq {sgm : Segment} {ps : List Buf} {tail : List UInt8}
    (h : Holds sgm ps tail) (hne : ps ≠ [] ∨ tail = [])
    (hcap : ps.length < indexCapacity sgm.size) :
    findWOffsetPair sgm.buffer sgm.index (calculateIndexSize sgm.size) =
      some ⟨ps.length, (image frame ps).length⟩ := by
  have hf := h.fits
  have hs := h.small
  refine findWOffsetPair_stored h.stored hcap ⟨?_, ?_⟩ (by omega)
  · rw [h.index]
    exact padded_of_ge (by rw [length_starts])
  · rintro ⟨hzero, hhdr⟩
    have hnil := List.length_eq_zero_iff.mp hzero
    rcases hne with hne | rfl
    · exact hne hnil
    · rw [h.buffer, hnil] at hhdr
      cases hhdr

end Mqlog
