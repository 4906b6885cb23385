/-
  Closing a log and opening it again.

  The directory of a closed log holds the files of its segments (`Growing.close`).  Each of them
  opens as a segment with the same messages, and with a write offset behind the last of them;
  nothing in it is unsynced.  Loading them in order gives the same log at other addresses
  (`ClosedAs.load`), so every message is read from the reopened log, and the next write goes on
  where the last one stopped (`reopen_preserves`).

    1. Closing: `ClosedAs lg dir` says that the directory holds the files of the segments of the
       log, and no others.  A segment below 2 GiB can always be closed (`SlotHolds.closable`); above
       it the size of what is not synced may not fit into an `int`.
    2. Loading: `Reopens` relates a slot of the reopened log to the one it was closed from.  The
       messages are the same, the address is another one, and everything is synced: the synced
       position of a segment that was opened is its write offset.  An end-of-segment frame is not
       found again, so that the write offset of a sealed segment lies in front of it.
    3. The round trip: closing, opening and one more message (`BecomesMessage`).

  Two things can go wrong, and are conditions of the result.  The directory may be listed in another
  order (`Increasing`), and the index of a segment may be used up (`KeepsEntry`):
  `find_w_offset_pair` takes the messages up to the first entry that is zero, and fails where there
  is none.

  The last segment is unsealed in a log that grows, and stays so (`Reopens.unsealed`).  The others
  may have been sealed, and are not any more after opening; but nothing is written to them, as
  `mqlog_write` goes to the last segment.
-/
import Mqlog.LogLoad
import Mqlog.LogSync

namespace Mqlog

open Lib Lib.Mem Lib.Records

/-! ## Closing -/

theorem map_key_indexEntries (l : List Slot) :
    (indexEntries l).map Data.key = starts Slot.ps l := by
  refine List.ext_getElem? fun k => ?_
  rw [List.getElem?_map]
  rcases Nat.lt_or_ge k l.length with hk | hk
  · have hk' : k < (starts Slot.ps l).length := by rwa [length_starts]
    rw [getElem?_indexEntries hk, List.getElem?_eq_getElem hk', getElem_starts]
    rfl
  · rw [List.getElem?_eq_none (by rwa [length_indexEntries]),
      List.getElem?_eq_none (by rwa [length_starts])]
    rfl

theorem map_value_indexEntries (l : List Slot) :
    (indexEntries l).map Data.value = l.map Slot.addr := by
  refine List.ext_getElem? fun k => ?_
  rw [List.getElem?_map, List.getElem?_map]
  rcases Nat.lt_or_ge k l.length with hk | hk
  · rw [getElem?_indexEntries hk, List.getElem?_eq_getElem hk]
    rfl
  · rw [List.getElem?_eq_none (by rwa [length_indexEntries]), List.getElem?_eq_none hk]
    rfl

/-- The directory holds the files of the segments of the log, and no others. -/
structure ClosedAs (dir : Dir) (lg : MqLog) (l : List Slot) : Prop where
  only : dir.Only (starts Slot.ps l)
  files : ∀ k, (hk : k < l.length) → ∃ sgm, SlotHolds lg (base l k) l[k] sgm ∧
    dir.files (base l k) = closedFiles sgm

/-- A segment below 2 GiB can be closed. -/
theorem SlotHolds.closable {lg : MqLog} {b : Nat} {s : Slot} {sgm : Segment}
    (h : SlotHolds lg b s sgm) (hsmall : lg.size % 2 ^ 32 < 2 ^ 31) : Closable sgm where
  data_le := h.synced_le
  index_le := h.synced_index_le
  data_lt := by
    have hle := h.holds.written_le_size
    rw [h.size_eq] at hle
    omega
  index_lt := by
    have hle : 12 * s.ps.length + 12 ≤ sgm.size := h.holds.count_le
    rw [h.size_eq] at hle
    rw [h.holds.count]
    omega

/-- The segments of a log, with their base offsets. -/
theorem LogInv.exists_parts {lg : MqLog} {l : List Slot} (h : LogInv lg l) :
    ∃ parts, List.Forall₂ (Refers lg) (indexEntries l) parts ∧
      (∀ part ∈ parts, ∃ s ∈ l, SlotHolds lg part.1 s part.2) ∧
      ∀ k, (hk : k < l.length) → ∃ sgm, SlotHolds lg (base l k) l[k] sgm ∧
        (base l k, sgm) ∈ parts := by
  have hslots : ∀ k, ∃ sgm, ∀ hk : k < l.length, SlotHolds lg (base l k) l[k] sgm := by
    intro k
    by_cases hk : k < l.length
    · obtain ⟨sgm, hsgm⟩ := h.slots k hk
      exact ⟨sgm, fun _ => hsgm⟩
    · exact ⟨Segment.fresh 0 0 0, fun hk' => absurd hk' hk⟩
  choose f hf using hslots
  refine ⟨(List.range l.length).map fun k => (base l k, f k), ?_, ?_, fun k hk => ?_⟩
  · refine List.forall₂_iff_get.mpr ⟨by simp, fun k hk hk' => ?_⟩
    rw [length_indexEntries] at hk
    have hentry := getElem?_indexEntries hk
    rw [List.getElem?_eq_getElem (by rwa [length_indexEntries])] at hentry
    simp only [List.get_eq_getElem, List.getElem_map, List.getElem_range, Option.some.inj hentry]
    exact ⟨rfl, (hf k hk).get⟩
  · intro part hpart
    obtain ⟨k, hk, rfl⟩ := List.mem_map.mp hpart
    rw [List.mem_range] at hk
    exact ⟨l[k], List.getElem_mem hk, hf k hk⟩
  · exact ⟨f k, hf k hk, List.mem_map.mpr ⟨k, List.mem_range.mpr hk, rfl⟩⟩

/-- **Closing a log** leaves the files of its segments behind. -/
theorem Growing.close {lg : MqLog} {l : List Slot} (h : Growing lg l) (page : PageSize)
    (hsmall : lg.size % 2 ^ 32 < 2 ^ 31) :
    ∃ lgc, mqlogClose page lg = some (0, lgc) ∧ ClosedAs lgc.dir lg l := by
  obtain ⟨parts, hrefers, hslots, hmem⟩ := h.inv.exists_parts
  have hkeys : parts.map Prod.fst = starts Slot.ps l := by
    rw [← Refers.key_eq hrefers, map_key_indexEntries]
  have hfirst : ∀ d ∈ (indexEntries l).head?, d.key = 0 := by
    intro d hd
    cases l with
    | nil => cases hd
    | cons s l =>
      rw [List.head?_eq_getElem?, getElem?_indexEntries (Nat.succ_pos _)] at hd
      obtain rfl := Option.some.inj hd
      exact start_zero (f := Slot.ps) (s :: l)
  obtain ⟨lgc, hclose, hdir⟩ := mqlogClose_closed page h.inv.tree
    (by rw [map_value_indexEntries]; exact h.inv.nodup) hrefers hfirst h.inv.calls
    (fun part hpart => by
      obtain ⟨s, -, hs⟩ := hslots part hpart
      exact ⟨hs.closable hsmall, hs.base_eq⟩)
  have hnodup : (parts.map Prod.fst).Nodup := by
    have hsorted := h.inv.tree.sorted
    rw [hkeys, ← map_key_indexEntries]
    refine List.Pairwise.map _ (fun x y hxy => ?_) hsorted
    exact Nat.ne_of_lt hxy
  refine ⟨lgc, hclose, ?_, fun k hk => ?_⟩
  · rw [hdir]
    exact closedDir_only h.only (by rw [hkeys]; exact List.Subset.refl _)
  · obtain ⟨sgm, hsgm, hpart⟩ := hmem k hk
    exact ⟨sgm, hsgm, by rw [hdir]; exact closedDir_files hnodup hpart⟩

/-! ## Loading -/

/-- Every index file has an unused entry. -/
def KeepsEntry (lg : MqLog) : Prop :=
  ∀ addr sgm, lg.segs.get addr = some sgm → sgm.wOffset.index < indexCapacity sgm.size

theorem keepsEntry_iff {lg : MqLog} : KeepsEntry lg ↔ ∀ addr ∈ List.range lg.segs.next,
    ∀ sgm ∈ lg.segs.get addr, sgm.wOffset.index < indexCapacity sgm.size := by
  constructor
  · intro h addr _ sgm hsgm
    exact h addr sgm hsgm
  · intro h addr sgm hget
    exact h addr (List.mem_range.mpr (Heap.lt_next hget)) sgm hget

instance (lg : MqLog) : Decidable (KeepsEntry lg) := decidable_of_iff' _ keepsEntry_iff

/-- The segment has the same messages as before, somewhere else, and all of them are synced. -/
structure Reopens (s' s : Slot) : Prop where
  ps_eq : s'.ps = s.ps
  tail_eq : s'.tail = s.tail
  synced : (image frame s.ps).length ≤ s'.synced

/-- A reopened slot holds the messages it was closed with. -/
theorem Reopens.map_ps {l' l : List Slot} (h : List.Forall₂ Reopens l' l) :
    l'.map Slot.ps = l.map Slot.ps := by
  induction h with
  | nil => rfl
  | cons hr _ ih => rw [List.map_cons, List.map_cons, hr.ps_eq, ih]

theorem Reopens.messages_eq {l' l : List Slot} (h : List.Forall₂ Reopens l' l) :
    messages l' = messages l := by
  rw [messages, messages, image, image, List.flatMap_def, List.flatMap_def, map_ps h]

theorem Reopens.starts_eq {l' l : List Slot} (h : List.Forall₂ Reopens l' l) :
    starts Slot.ps l' = starts Slot.ps l := by
  have hstart : start Slot.ps l' = start Slot.ps l := by
    funext k
    rw [start, start, image, image, List.flatMap_def, List.flatMap_def, List.map_take,
      List.map_take, map_ps h]
  rw [starts, starts, hstart, h.length_eq]

section Load

variable {page : PageSize} {lg lg' : MqLog} {l l' : List Slot} {dir : Dir}

/-- The files of a segment with messages open as that segment. -/
theorem ClosedAs.opensAs (h : ClosedAs dir lg l) (hinv : LogInv lg l) (hkeeps : KeepsEntry lg)
    (hmod : lg.size % 2 ^ 32 % page.bytes = 0) {k : Nat} (hk : k < l.length)
    (hbase : base l k < 2 ^ 64) (flags : Nat) :
    ∃ sgm, OpensAs page dir flags (base l k) sgm ∧ Holds sgm l[k].ps l[k].tail ∧
      sgm.baseOffset = base l k ∧ sgm.size = lg.size % 2 ^ 32 ∧ sgm.flags = flags ∧
      sgm.sOffset = sgm.wOffset := by
  obtain ⟨sgm, hsgm, hfiles⟩ := h.files k hk
  have hcap := hkeeps _ sgm hsgm.get
  rw [hsgm.holds.count] at hcap
  have hfits := hsgm.holds.fits
  have hsmall := hsgm.holds.small
  have h12 : headerSize = 12 := rfl
  have hne : l[k].ps ≠ [] := hinv.nonempty _ (List.getElem_mem hk)
  refine ⟨_, ⟨hbase, sgm.size, ?_, ?_⟩, hsgm.holds.reopened (base l k) flags, rfl, hsgm.size_eq,
    rfl, rfl⟩
  · have hdata : dir.data (dataFilename (base l k)) = _ := congrArg SegmentFiles.data hfiles
    rw [Dir.fileSize, hdata]
    rfl
  · rw [Nat.mod_eq_of_lt hsmall, hfiles]
    exact hsgm.holds.segmentOpen_closed (.inl hne) hcap (by omega)
      (by rw [hsgm.size_eq]; exact hmod) _ _

/-- **Loading the files in order** gives the log again. -/
theorem ClosedAs.load (h : ClosedAs dir lg l) (hinv : LogInv lg l) (hkeeps : KeepsEntry lg)
    (hmod : lg.size % 2 ^ 32 % page.bytes = 0) (hbases : ∀ b ∈ starts Slot.ps l, b < 2 ^ 64) :
    ∀ (n k : Nat) {lg' : MqLog} {l' : List Slot}, k + n = l.length → LogInv lg' l' →
      List.Forall₂ Reopens l' (l.take k) → lg'.dir = dir → lg'.size = lg.size →
      ∃ lg'' l'', loadSegments page lg' (((starts Slot.ps l).drop k).map dataFilename) =
          some (0, lg'') ∧ LogInv lg'' l'' ∧ List.Forall₂ Reopens l'' l ∧ lg''.dir = dir ∧
        lg''.size = lg.size ∧ lg''.flags = lg'.flags
  | 0, k, lg', l', hk, hinv', hrel, hdir, hsize => by
    rw [List.take_of_length_le (by omega)] at hrel
    rw [List.drop_of_length_le (by rw [length_starts]; omega)]
    exact ⟨lg', l', rfl, hinv', hrel, hdir, hsize, rfl⟩
  | n + 1, k, lg', l', hk, hinv', hrel, hdir, hsize => by
    have hlt : k < l.length := by omega
    have hlt' : k < (starts Slot.ps l).length := by rwa [length_starts]
    have hne : l[k].ps ≠ [] := hinv.nonempty _ (List.getElem_mem hlt)
    have hhead : (starts Slot.ps l)[k] = base l k := getElem_starts hlt'
    have hsmall : base l k < 2 ^ 64 := hbases _ (hhead ▸ List.getElem_mem hlt')
    obtain ⟨sgm, hopens, hholds, hbase, hsgmsize, hflags, hsynced⟩ :=
      h.opensAs hinv hkeeps hmod hlt hsmall lg'.flags
    have hbase' : base l k = (messages l').length := by
      rw [Reopens.messages_eq hrel]
      rfl
    have hkey : ∀ d ∈ indexEntries l', d.key < base l k := by
      rw [hbase']
      exact hinv'.key_lt
    obtain ⟨index, hload, htree⟩ :=
      loadSegment_next hinv'.calls (by rw [hdir]; exact hopens) hinv'.tree hkey
    have hslot : SlotHolds { lg' with segs := lg'.segs.alloc sgm, index := index }
        (messages l').length ⟨lg'.segs.next, l[k].ps, l[k].tail, sgm.sOffset.data⟩ sgm :=
      { get := Heap.get_alloc_self ..
        holds := hholds
        base_eq := hbase.trans hbase'
        size_eq := by rw [hsgmsize, ← hsize]
        flags_eq := by rw [hflags]; rfl
        synced_eq := rfl
        synced_le := by rw [hsynced]
        synced_index_le := by rw [hsynced] }
    rw [hbase'] at htree
    have hadd : LogInv { lg' with segs := lg'.segs.alloc sgm, index := index }
        (l' ++ [⟨lg'.segs.next, l[k].ps, l[k].tail, sgm.sOffset.data⟩]) :=
      hinv'.add _ htree (fun a ha => if_neg (Nat.ne_of_lt ha)) rfl rfl hinv'.unlocked rfl
        (Nat.le_refl _) hne hslot
    have hrel' : List.Forall₂ Reopens
        (l' ++ [⟨lg'.segs.next, l[k].ps, l[k].tail, sgm.sOffset.data⟩]) (l.take (k + 1)) := by
      rw [List.take_succ_eq_append_getElem hlt]
      refine List.rel_append hrel (.cons ⟨rfl, rfl, ?_⟩ .nil)
      rw [hsynced]
      exact hholds.le_written
    obtain ⟨lg'', l'', hrest, hinv'', hrel'', hdir'', hsize'', hflags''⟩ :=
      ClosedAs.load h hinv hkeeps hmod hbases n (k + 1) (by omega) hadd hrel' hdir hsize
    refine ⟨lg'', l'', ?_, hinv'', hrel'', hdir'', hsize'', hflags''⟩
    rw [List.drop_eq_getElem_cons hlt', List.map_cons, hhead, loadSegments,
      if_pos (isLog_dataFilename _), hload]
    exact hrest

theorem LogInv.starts_increasing (h : LogInv lg l) : (starts Slot.ps l).Pairwise (· < ·) := by
  rw [← map_key_indexEntries, List.pairwise_map]
  exact h.tree.sorted

/-- The segments of a closed log are those that had been in it. -/
theorem ClosedAs.mem_starts (h : ClosedAs dir lg l) (b : Nat) :
    b ∈ starts Slot.ps l ↔ (dir.data (dataFilename b)).isSome := by
  constructor
  · intro hb
    obtain ⟨k, hk, rfl⟩ := List.getElem_of_mem hb
    have hk' : k < l.length := by rwa [length_starts] at hk
    obtain ⟨sgm, -, hfiles⟩ := h.files k hk'
    have hdata : dir.data (dataFilename (base l k)) = _ := congrArg SegmentFiles.data hfiles
    rw [getElem_starts]
    show (dir.data (dataFilename (base l k))).isSome
    rw [hdata]
    rfl
  · intro hsome
    obtain ⟨b', hb', heq⟩ := h.only.data _ hsome
    rwa [dataFilename_injective heq]

/-- A listing in increasing order is the list of the segments. -/
theorem ClosedAs.filter_eq (h : ClosedAs dir lg l) (hinv : LogInv lg l) {names : List (List Char)}
    (hnames : Lists names dir) (hincreasing : Increasing names) :
    names.filter isLog = (starts Slot.ps l).map dataFilename ∧ ∀ b ∈ starts Slot.ps l, b < 2 ^ 64 :=
  (h.only.hasData fun b hb => (h.mem_starts b).mp hb).filter_eq hinv.starts_increasing
    zero_mem_starts hnames
    hincreasing

/-- The segments of a closed log can be listed in this order. -/
theorem ClosedAs.lists (h : ClosedAs dir lg l) (hinv : LogInv lg l) :
    Lists ((starts Slot.ps l).map dataFilename) dir :=
  (h.only.hasData fun b hb => (h.mem_starts b).mp hb).lists hinv.starts_increasing

/-- The last segment is as it was. -/
theorem Reopens.unsealed (h : List.Forall₂ Reopens l' l) (hlast : ∀ s ∈ l.getLast?, s.tail = []) :
    ∀ s ∈ l'.getLast?, s.tail = [] := by
  have htail : l'.map Slot.tail = l.map Slot.tail := by
    clear hlast
    induction h with
    | nil => rfl
    | cons hr _ ih => rw [List.map_cons, List.map_cons, hr.tail_eq, ih]
  intro s hs
  have hs' : (l'.map Slot.tail).getLast? = some s.tail := by
    rw [List.getLast?_map, Option.mem_def.mp hs]
    rfl
  rw [htail, List.getLast?_map, Option.map_eq_some_iff] at hs'
  obtain ⟨t, ht, heq⟩ := hs'
  rw [← heq]
  exact hlast t ht

/-- Everything is synced in a reopened log. -/
theorem Reopens.all_synced (h : List.Forall₂ Reopens l' l) :
    ∀ t ∈ l', (image frame t.ps).length ≤ t.synced := by
  induction h with
  | nil => exact fun t ht => absurd ht List.not_mem_nil
  | cons hr _ ih =>
    intro t ht
    rcases List.mem_cons.mp ht with rfl | ht
    · rw [hr.ps_eq]
      exact hr.synced
    · exact ih t ht

/-- What is synced is committed. -/
theorem committed_of_synced (hsynced : ∀ t ∈ l, (image frame t.ps).length ≤ t.synced) (m : Nat) :
    Committed l m := by
  refine ⟨fun t ht => hsynced t ((List.dropLast_sublist l).subset ht), fun s hs i hi _ => ?_⟩
  have hend := start_add_le_image (f := frame) hi
  have h12 := headerSize_le_frame s.ps[i]
  have hpos : headerSize = 12 := rfl
  have hle := hsynced s (List.mem_of_getLast? hs)
  omega

/-- **Opening the directory of a closed log** gives the log again. -/
theorem ClosedAs.reopen (h : ClosedAs dir lg l) (hgrow : Growing lg l) (hkeeps : KeepsEntry lg)
    (hmod : lg.size % page.bytes = 0) (flags : Nat) {names : List (List Char)}
    (hnames : Lists names dir) (hincreasing : Increasing names) :
    ∃ lg' l', mqlogOpen page .ok dir names lg.size flags = some (0, some lg', dir) ∧
      Growing lg' l' ∧ List.Forall₂ Reopens l' l ∧ lg'.size = lg.size ∧ lg'.flags = flags := by
  obtain ⟨lg₁, hinv₁, hsize₁, hflags₁, hdir₁, hopen⟩ := mqlogOpen_fresh flags dir hmod
  obtain ⟨hfilter, hbases⟩ := h.filter_eq hgrow.inv hnames hincreasing
  obtain ⟨lg', l', hload, hinv', hrel, hdir', hsize', hflags'⟩ := h.load hgrow.inv hkeeps
    (page.mod_of_mod hmod) hbases l.length 0 (Nat.zero_add _) hinv₁ .nil hdir₁ hsize₁
  rw [List.drop_zero, ← hfilter, ← loadSegments_filter] at hload
  refine ⟨lg', l', ?_, ⟨hinv', Reopens.unsealed hrel hgrow.unsealed, ?_⟩, hrel, hsize',
    hflags'.trans hflags₁⟩
  · rw [hopen, hload, Option.bind_some, if_neg (not_not.mpr rfl), hdir']
  · rw [hdir', Reopens.starts_eq hrel]
    exact h.only

end Load

/-! ## The round trip -/

/-- The next write makes `buf` the message with number `n`: it can be read at once from a log that
    shows all messages, and after a sync from every log. -/
def BecomesMessage (page : PageSize) (lg : MqLog) (n : Nat) (buf : Buf) : Prop :=
  ∃ lg', mqlogWrite page lg buf = some ((buf.1.length : Int), lg') ∧
    (lg.flags &&& mqlogRdcmt ≠ mqlogRdcmt → LogReads lg' n buf) ∧
    ∃ rc lg'', mqlogSync page lg' = some (rc, lg'') ∧ LogReads lg'' n buf

/-- A write to a log in which everything is synced, and a sync. -/
theorem Growing.becomesMessage {page : PageSize} {lg : MqLog} {l : List Slot} {buf : Buf}
    (h : Growing lg l) (h0 : 0 < lg.size % 2 ^ 32) (hmod : lg.size % 2 ^ 32 % page.bytes = 0)
    (hne : buf.1.length ≠ 0) (hfits : buf.1.length + 2 * headerSize ≤ lg.size % 2 ^ 32)
    (hsynced : ∀ s ∈ l, (image frame s.ps).length ≤ s.synced) :
    BecomesMessage page lg (messages l).length buf := by
  obtain ⟨lg', l', hwrite, hgrow', hgrows, hsize', hflags'⟩ := h.write h0 hmod hne hfits
  obtain ⟨rc, lg'', l'', hsync, hgrow'', hsyncs, -, -⟩ := hgrow'.sync page
  have hnext : (messages l')[(messages l).length]? = some buf := by
    rw [hgrows.messages_eq, List.getElem?_append_right (Nat.le_refl _), Nat.sub_self]
    rfl
  refine ⟨lg', hwrite, fun hflags => ?_, rc, lg'', hsync, ?_⟩
  · exact hgrow'.inv.reads hnext (visible_rddrt (by rwa [hflags']))
  · refine hgrow''.inv.reads (by rwa [hsyncs.messages_eq]) ?_
    have hcommitted := (committed_of_synced hsynced _).grows (Nat.le_refl _) hgrows
      fun l₀ s heq _ => hsynced s (heq ▸ List.mem_append_right _ (List.mem_singleton_self s))
    exact (hcommitted.syncs hsyncs ((messages l).length + 1)).visible (Nat.lt_succ_self _)

/-- **Reopening preserves the log**: closing succeeds, opening the directory again succeeds when it
    is listed in increasing order, every message is read from the new log and nothing else, and the
    next message goes behind the last one. -/
theorem reopen_preserves {page : PageSize} {size flags : Nat} {names : List (List Char)} {rc : Int}
    {lg₀ lg : MqLog} {dir : Dir} {bufs : List Buf} {rcs : List Int} (hsmall : size < 2 ^ 31)
    (hnames : Lists names Dir.empty)
    (hopen : mqlogOpen page .ok Dir.empty names size flags = some (rc, some lg₀, dir))
    (hbufs : ∀ buf ∈ bufs, 1 ≤ buf.1.length ∧ buf.1.length + 2 * headerSize ≤ size)
    (hrun : writeAll page lg₀ bufs = some (rcs, lg)) (hkeeps : KeepsEntry lg) :
    ∃ lgc, mqlogClose page lg = some (0, lgc) ∧
      ∀ names' flags', Lists names' lgc.dir → Increasing names' →
        ∃ lg', mqlogOpen page .ok lgc.dir names' size flags' = some (0, some lg', lgc.dir) ∧
          (∀ k buf, bufs[k]? = some buf → LogReads lg' k buf) ∧
          (∀ k, bufs.length ≤ k → LogNotThere lg' k) ∧
          ∀ buf : Buf, 1 ≤ buf.1.length → buf.1.length + 2 * headerSize ≤ size →
            BecomesMessage page lg' bufs.length buf := by
  have hmod32 : size % 2 ^ 32 = size := Nat.mod_eq_of_lt (Nat.lt_trans hsmall (by decide))
  obtain ⟨hmod₀, hgrow₀, hsize₀, -⟩ := mqlogOpen_growing hnames hopen
  -- the log that was written
  obtain ⟨l, hgrow, hmsgs, hsize⟩ : ∃ l, Growing lg l ∧ messages l = bufs ∧ lg.size = size := by
    cases bufs with
    | nil =>
      obtain ⟨-, rfl⟩ := Prod.mk.inj (Option.some.inj hrun)
      exact ⟨[], hgrow₀, rfl, hsize₀⟩
    | cons buf bufs =>
      obtain ⟨hpos, hfits⟩ := hbufs buf List.mem_cons_self
      obtain ⟨lg', l, hrun', hgrow, hmsgs, hsize, -⟩ := Growing.writeAll page (buf :: bufs) hgrow₀
        (by rw [hsize₀, hmod32]; omega) hmod₀ fun b hb => by
          obtain ⟨hpos, hfits⟩ := hbufs b hb
          rw [hsize₀, hmod32]
          exact ⟨Nat.ne_of_gt hpos, hfits⟩
      rw [hrun] at hrun'
      obtain ⟨-, rfl⟩ := Prod.mk.inj (Option.some.inj hrun')
      exact ⟨l, hgrow, hmsgs, hsize.trans hsize₀⟩
  have hmod : lg.size % page.bytes = 0 := by
    rw [hsize, ← hmod32, ← hsize₀]
    exact hmod₀
  obtain ⟨lgc, hclose, hclosed⟩ := hgrow.close page (by rw [hsize, hmod32]; exact hsmall)
  refine ⟨lgc, hclose, fun names' flags' hnames' hincreasing => ?_⟩
  obtain ⟨lg', l', hopen', hgrow', hrel, hsize', -⟩ :=
    hclosed.reopen hgrow hkeeps hmod flags' hnames' hincreasing
  have hmsgs' : messages l' = bufs := (Reopens.messages_eq hrel).trans hmsgs
  rw [hsize] at hopen'
  refine ⟨lg', hopen', fun k buf hbuf => ?_, fun k hk => ?_, fun buf hpos hfits => ?_⟩
  · exact hgrow'.inv.reads (by rw [hmsgs']; exact hbuf)
      ((committed_of_synced (Reopens.all_synced hrel) (k + 1)).visible (Nat.lt_succ_self k))
  · exact hgrow'.inv.unwritten (by rwa [hmsgs'])
  · rw [← hmsgs']
    have hsize32 : lg'.size % 2 ^ 32 = size := by rw [hsize', hsize, hmod32]
    have hmod' : lg'.size % 2 ^ 32 % page.bytes = 0 := by
      rw [hsize32, ← hmod32, ← hsize₀]
      exact hmod₀
    exact hgrow'.becomesMessage (by rw [hsize32]; omega) hmod' (Nat.ne_of_gt hpos)
      (by rwa [hsize32]) (Reopens.all_synced hrel)

/-- One byte, and 4072 bytes that start a second segment. -/
theorem closed_two :
    ∃ lg₀ lg lgc l, mqlogOpen page4096 .ok Dir.empty [] 4096 mqlogRddrt =
        some (0, some lg₀, Dir.empty) ∧
      writeAll page4096 lg₀ [bytes 1 0x61 (by decide), bytes 4072 0x62 (by decide)] =
        some ([1, 4072], lg) ∧
      mqlogClose page4096 lg = some (0, lgc) ∧ Growing lg l ∧ ClosedAs lgc.dir lg l ∧
        KeepsEntry lg ∧
      lg.size = 4096 ∧ starts Slot.ps l = [0, 1] ∧ (messages l).length = 2 := by
  have hopen : mqlogOpen page4096 .ok Dir.empty [] 4096 mqlogRddrt = some (0, some _, Dir.empty) :=
    rfl
  have hruns : ((mqlogOpen page4096 .ok Dir.empty [] 4096 mqlogRddrt).bind fun r =>
    r.2.1.bind fun lg =>
      (writeAll page4096 lg [bytes 1 0x61 (by decide), bytes 4072 0x62 (by decide)]).map fun w =>
        (w.1, decide (KeepsEntry w.2), (chainEntries w.2.index).map (List.map Data.key))) =
      some ([1, 4072], true, some [0, 1]) := by
    decide +kernel
  obtain ⟨hmod, hgrow, hsize, -⟩ := mqlogOpen_growing lists_nil hopen
  rw [hopen, Option.bind_some, Option.bind_some, Option.map_eq_some_iff] at hruns
  obtain ⟨w, hrun, hw⟩ := hruns
  obtain ⟨hcodes, hrest⟩ := Prod.mk.inj hw
  obtain ⟨hkeeps, hkeys⟩ := Prod.mk.inj hrest
  obtain ⟨lg', l, hrun', hgrow', hmsgs, hsize', -⟩ := hgrow.writeAll page4096 _ (by decide) hmod
    fun buf hbuf => ⟨Nat.ne_of_gt (fit_two buf hbuf).1, (fit_two buf hbuf).2⟩
  rw [hrun] at hrun'
  obtain ⟨-, hlg⟩ := Prod.mk.inj (Option.some.inj hrun')
  rw [← hlg] at hgrow' hsize'
  have h4096 : w.2.size = 4096 := hsize'.trans hsize
  obtain ⟨lgc, hclose, hclosed⟩ := hgrow'.close page4096 (by rw [h4096]; decide)
  refine ⟨_, w.2, lgc, l, hopen, ?_, hclose, hgrow', hclosed, of_decide_eq_true hkeeps, h4096, ?_,
    congrArg List.length hmsgs⟩
  · rw [hrun, ← hcodes]
  · rw [chainEntries_spec three_le_branchFactor hgrow'.inv.tree, Option.map_some,
      map_key_indexEntries] at hkeys
    exact Option.some.inj hkeys

theorem reopen_preserves_of_two :
    ∃ lg₀ lg lgc lg', mqlogOpen page4096 .ok Dir.empty [] 4096 mqlogRddrt =
        some (0, some lg₀, Dir.empty) ∧
      writeAll page4096 lg₀ [bytes 1 0x61 (by decide), bytes 4072 0x62 (by decide)] =
        some ([1, 4072], lg) ∧
      mqlogClose page4096 lg = some (0, lgc) ∧
      mqlogOpen page4096 .ok lgc.dir [dataFilename 0, dataFilename 1] 4096 mqlogRdcmt =
        some (0, some lg', lgc.dir) ∧
      (∀ k buf, [bytes 1 0x61 (by decide), bytes 4072 0x62 (by decide)][k]? = some buf →
        LogReads lg' k buf) ∧
      (∀ k, 2 ≤ k → LogNotThere lg' k) ∧
      ∀ buf : Buf, 1 ≤ buf.1.length → buf.1.length + 2 * headerSize ≤ 4096 →
        BecomesMessage page4096 lg' 2 buf := by
  obtain ⟨lg₀, lg, lgc, l, hopen, hrun, hclose, hgrow, hclosed, hkeeps, -, hstarts, -⟩ := closed_two
  obtain ⟨lgc', hclose', hreopen⟩ :=
    reopen_preserves (by decide) lists_nil hopen fit_two hrun hkeeps
  rw [hclose] at hclose'
  obtain rfl : lgc = lgc' := (Prod.mk.inj (Option.some.inj hclose')).2
  have hlists := hclosed.lists hgrow.inv
  rw [hstarts] at hlists
  have hfilter : [dataFilename 0, dataFilename 1].filter isLog = [0, 1].map dataFilename := rfl
  obtain ⟨lg', hopen', hreads, hends, hnext⟩ := hreopen [dataFilename 0, dataFilename 1] mqlogRdcmt
    hlists ((increasing_iff hfilter (by decide)).mpr (by decide))
  exact ⟨lg₀, lg, lgc, lg', hopen, hrun, hclose, hopen', hreads, hends, hnext⟩

end Mqlog
