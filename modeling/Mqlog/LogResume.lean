/-
  A log that goes on behind the messages that it has.

  The segments of a recovered log begin with their messages, and anything may be behind these: bytes
  of a message that was in flight, an end-of-segment frame (`Keeps`).  `mqlog_read` looks at nothing
  behind the messages, so it finds them and nothing else (`Resumed.hasMessages`).  `mqlog_write`
  stores the next message over whatever is there, or starts a segment (`Writable.write`).  The last
  segment may be without messages; it takes the next one, since that fits into a segment.

  This is the place of `LogInv` for a log that was not closed.  `LogInv` says what is behind the
  messages of a segment, and that none is empty; after a kill neither holds.  What callers see is
  the same, so it is said without slots:

    * `HasMessages lg ms`: the messages `ms` can be read under their numbers, and nothing else;
    * `Writable size lg ms`: besides, the log takes messages that fit.

  `Resumed` is the invariant below: the segments in the index keep the messages `ks`, each behind
  those of the segments in front of it, and there are no files at the next offset which would be in
  the way of a new segment.

  A write has the two cases of `Growing.write`: the last segment takes the message
  (`Resumed.set_last`), or it has no room left, or ends like a sealed one, and a new segment does
  (`Resumed.start`).  In both cases the log has the message behind the others, and is `Writable`
  again (`Writable.write`), so that a run of writes appends all its messages (`Writable.writeAll`).
-/
import Mqlog.LogLoad
import Mqlog.SegmentKill

namespace Mqlog

open Lib Lib.Mem Lib.Records

/-! ## The messages -/

/-- A segment and the messages that it keeps. -/
abbrev Kept := Segment × List Buf

/-- The segment under its base offset. -/
def Kept.part (k : Kept) : Nat × Segment := (k.1.baseOffset, k.1)

/-- The segments `ks` are loaded, each behind the messages of those in front of it. -/
structure Resumed (lg : MqLog) (ks : List Kept) : Prop where
  loaded : ∃ es, Loaded lg es (ks.map Kept.part)
  bases : (ks.map Kept.part).map Prod.fst = starts Prod.snd ks
  keeps : ∀ k ∈ ks, Keeps k.1 k.2
  unlocked : lg.locked = false

section Reading

variable {lg : MqLog} {ks : List Kept}

theorem Resumed.increasing (h : Resumed lg ks) : (starts Prod.snd ks).Pairwise (· < ·) := by
  obtain ⟨es, hloaded⟩ := h.loaded
  rw [← h.bases, ← Refers.key_eq hloaded.refers, List.pairwise_map]
  exact hloaded.tree.sorted

theorem Resumed.part_eq (h : Resumed lg ks) {j : Nat} (hj : j < ks.length) :
    (ks.map Kept.part)[j]? = some (start Prod.snd ks j, ks[j].1) := by
  have hbase : ((ks.map Kept.part).map Prod.fst)[j]? = (starts Prod.snd ks)[j]? := by rw [h.bases]
  rw [List.getElem?_map, List.getElem?_map, List.getElem?_eq_getElem hj,
    List.getElem?_eq_getElem (by rwa [length_starts]), getElem_starts] at hbase
  rw [List.getElem?_map, List.getElem?_eq_getElem hj]
  exact congrArg (fun b => some (b, ks[j].1)) (Option.some.inj hbase)

end Reading

/-! ## Writing -/

/-- The log takes messages that fit into a segment of `size` bytes. -/
structure Writable (size : Nat) (lg : MqLog) (ks : List Kept) : Prop where
  resumed : Resumed lg ks
  last : ∀ k ∈ ks.getLast?, WritesBehind k.1 k.2 ∧ k.1.size = size ∧
    k.1.flags &&& sgmRdcmt ≠ sgmRdcmt
  size_eq : lg.size = size
  flags : lg.flags &&& mqlogRdcmt ≠ mqlogRdcmt
  unused : ∀ b, b ∉ starts Prod.snd ks → (lg.dir.files b).Unused size

section Writing

variable {page : PageSize} {size : Nat} {lg : MqLog} {es : List Data} {parts : List (Nat × Segment)}
  {ks : List Kept} {buf : Buf}

/-- The last pair of two related lists. -/
theorem exists_snoc {α β : Type} {R : α → β → Prop} {l : List α} {l' : List β} {b : β}
    (h : List.Forall₂ R l (l' ++ [b])) : ∃ l₁ a, l = l₁ ++ [a] ∧ List.Forall₂ R l₁ l' ∧ R a b := by
  rw [← List.forall₂_reverse_iff, List.reverse_append, List.reverse_singleton,
    List.singleton_append, List.forall₂_cons_right_iff] at h
  obtain ⟨a, l₁, hab, hrest, hrev⟩ := h
  refine ⟨l₁.reverse, a, ?_, ?_, hab⟩
  · rw [← List.reverse_reverse l, hrev, List.reverse_cons]
  · rw [← List.reverse_reverse l', List.forall₂_reverse_iff]
    exact hrest

/-- **The last segment** is the one that `mbptree_last_value` finds; it can be replaced. -/
theorem Loaded.last {b : Nat} {sgm : Segment} (h : Loaded lg es (parts ++ [(b, sgm)])) :
    ∃ addr, lg.segs.get addr = some sgm ∧ mbptreeLastValue lg.index = some (some addr) ∧
      ∀ sgm', Loaded { lg with segs := lg.segs.set addr sgm' } es (parts ++ [(b, sgm')]) := by
  obtain ⟨es, ⟨key, addr⟩, rfl, hrefers, hkey, hget⟩ := exists_snoc h.refers
  have hnodup := h.nodup
  rw [List.map_append, List.map_singleton, List.nodup_append] at hnodup
  refine ⟨addr, hget, ?_, fun sgm' => ⟨h.calls, h.tree, h.nodup, ?_⟩⟩
  · rw [mbptreeLastValue_spec h.tree, List.getLast?_concat]
    rfl
  · refine List.rel_append (Refers.congr hrefers fun d hd => Heap.get_set_of_ne ?_)
      (.cons ⟨hkey, Heap.get_set_self hget⟩ .nil)
    exact hnodup.2.2 _ (List.mem_map_of_mem hd) _ (List.mem_singleton_self _)

/-- **A new segment** behind the others. -/
theorem Resumed.start (h : Resumed lg ks) (hlast : ∀ k ∈ ks.getLast?, k.2 ≠ [])
    (hflags : lg.flags &&& mqlogRdcmt ≠ mqlogRdcmt)
    (hunused : ∀ b, b ∉ starts Prod.snd ks → (lg.dir.files b).Unused lg.size)
    (h0 : 0 < lg.size) (hsmall : lg.size < 2 ^ 32) (hmod : lg.size % page.bytes = 0)
    (hfits : buf.1.length + 2 * headerSize ≤ lg.size) :
    ∃ lg' ks', startSegment page { lg with locked := true } (image Prod.snd ks).length buf =
        some ((buf.1.length : Int), lg') ∧ Writable lg.size { lg' with locked := false } ks' ∧
      image Prod.snd ks' = image Prod.snd ks ++ [buf] := by
  obtain ⟨es, hloaded⟩ := h.loaded
  have hsize : lg.size % 2 ^ 32 = lg.size := Nat.mod_eq_of_lt hsmall
  have hstarts := starts_lt h.increasing hlast
  have hkey : ∀ e ∈ es, e.key < (image Prod.snd ks).length := by
    intro e he
    refine hstarts _ ?_
    rw [← h.bases, ← Refers.key_eq hloaded.refers]
    exact List.mem_map_of_mem he
  obtain ⟨lg', sgm, heq, hsame, ⟨files, hdir⟩, htree, hslot⟩ :=
    startSegment_fits { lg with locked := true }
    (by rwa [hsize]) (by rwa [hsize]) hloaded.calls
    (by rw [hsize]; exact hunused _ fun hmem => Nat.lt_irrefl _ (hstarts _ hmem)) hloaded.tree hkey
    (by rwa [hsize])
  have hsgm : sgm.flags &&& sgmRdcmt ≠ sgmRdcmt := by
    rw [hslot.flags_eq, hsame.flags_eq]
    exact hflags
  obtain ⟨hkeeps, hbehind⟩ := hslot.holds.keeps hsgm
  have hbases : ks.map Kept.part ++ [((image Prod.snd ks).length, sgm)] =
      (ks ++ [(sgm, [buf])]).map Kept.part := by
    rw [List.map_append, ← hslot.base_eq]
    rfl
  refine ⟨lg', ks ++ [(sgm, [buf])], heq,
    ⟨⟨⟨es ++ [⟨(image Prod.snd ks).length, lg.segs.next⟩], ?_⟩, ?_, ?_, rfl⟩, ?_, hsame.size_eq,
      ?_, ?_⟩,
    image_snoc ..⟩
  · rw [← hbases]
    exact hloaded.snoc hsame.calls_eq htree hsame.segs_eq hslot.get
  · rw [← hbases, List.map_append, h.bases, starts_snoc]
    rfl
  · intro k hk
    rcases List.mem_append.mp hk with hk | hk
    · exact h.keeps k hk
    · rw [List.mem_singleton.mp hk]
      exact hkeeps
  · intro k hk
    rw [List.getLast?_concat] at hk
    obtain rfl := Option.some.inj hk
    exact ⟨hbehind, hslot.size_eq.trans ((congrArg (· % 2 ^ 32) hsame.size_eq).trans hsize), hsgm⟩
  · show lg'.flags &&& mqlogRdcmt ≠ mqlogRdcmt
    rw [hsame.flags_eq]
    exact hflags
  · intro b hb
    rw [starts_snoc, List.mem_append, not_or, List.mem_singleton] at hb
    show (lg'.dir.files b).Unused lg.size
    rw [hdir, Dir.files_put_of_ne _ _ hb.2]
    exact hunused b hb.1

/-- The log with its last segment replaced. -/
theorem Resumed.set_last {sgm sgm' : Segment} {ps ps' : List Buf}
    (h : Resumed lg (ks ++ [(sgm, ps)])) (hkeeps : Keeps sgm' ps')
    (hbase : sgm'.baseOffset = sgm.baseOffset) :
    ∃ addr, lg.segs.get addr = some sgm ∧ mbptreeLastValue lg.index = some (some addr) ∧
      Resumed { lg with segs := lg.segs.set addr sgm' } (ks ++ [(sgm', ps')]) := by
  obtain ⟨es, hloaded⟩ := h.loaded
  have hparts : ∀ sgm ps,
      (ks ++ [(sgm, ps)]).map Kept.part = ks.map Kept.part ++ [(sgm.baseOffset, sgm)] :=
    fun sgm ps => List.map_append
  rw [hparts] at hloaded
  obtain ⟨addr, hget, hvalue, hset⟩ := hloaded.last
  refine ⟨addr, hget, hvalue, ⟨es, ?_⟩, ?_, ?_, h.unlocked⟩
  · rw [hparts, hbase]
    exact hset sgm'
  · have hbases := h.bases
    rw [hparts, starts_snoc, List.map_append] at hbases
    rw [hparts, starts_snoc, List.map_append, hbase]
    exact hbases
  · intro k hk
    rcases List.mem_append.mp hk with hk | hk
    · exact h.keeps k (List.mem_append_left _ hk)
    · rw [List.mem_singleton.mp hk]
      exact hkeeps

/-- **A message that fits into a segment is the next one of the log.** -/
theorem Writable.write (h : Writable size lg ks) (h0 : 0 < size) (hsmall : size < 2 ^ 32)
    (hmod : size % page.bytes = 0) (hne : buf.1.length ≠ 0)
    (hfits : buf.1.length + 2 * headerSize ≤ size) :
    ∃ lg' ks', mqlogWrite page lg buf = some ((buf.1.length : Int), lg') ∧ Writable size lg' ks' ∧
      image Prod.snd ks' = image Prod.snd ks ++ [buf] := by
  obtain rfl := h.size_eq
  rcases List.eq_nil_or_concat ks with rfl | ⟨ks, ⟨sgm, ps⟩, rfl⟩
  · -- the first segment
    obtain ⟨lg', ks', heq, hwritable, himage⟩ :=
      h.resumed.start (fun k hk => by cases hk) h.flags h.unused h0
      hsmall hmod hfits
    obtain ⟨es, hloaded⟩ := h.resumed.loaded
    obtain rfl : es = [] := List.forall₂_nil_right_iff.mp hloaded.refers
    have hfirst :=
      mqlogTrywrite_first page { lg with locked := true } buf (mbptreeLastValue_spec hloaded.tree)
    exact ⟨_, ks', mqlogWrite_unlocked h.resumed.unlocked hne (hfirst.trans heq), hwritable, himage⟩
  · rw [List.concat_eq_append] at *
    obtain ⟨hbehind, hsize, hflags⟩ := h.last (sgm, ps) (by rw [List.getLast?_concat]; rfl)
    have hkeeps := h.resumed.keeps _ (List.mem_append_right _ (List.mem_singleton_self _))
    have hunused := h.unused
    rw [starts_snoc] at hunused
    rcases hkeeps.write hbehind hflags buf with ⟨sgm', hwrite, hkeeps', hroom⟩ |
      ⟨sgm', hwrite, hkeeps', hbehind', hflags', hsize'⟩
    · -- a new segment, since the last one does not take it
      have hbase : sgm'.baseOffset = sgm.baseOffset := by
        have heq := segmentWrite_baseOffset sgm buf
        rwa [hwrite] at heq
      obtain ⟨addr, hget, hvalue, hresumed⟩ := h.resumed.set_last hkeeps' hbase
      have hps : ps ≠ [] := by
        intro hnil
        have hlt := hroom hnil
        rw [hsize] at hlt
        omega
      obtain ⟨lg', ks', heq, hwritable, himage⟩ := hresumed.start (fun k hk => by
        rw [List.getLast?_concat] at hk
        rw [← Option.some.inj hk]
        exact hps) h.flags (by rw [starts_snoc]; exact hunused) h0 hsmall hmod hfits
      have hoffset : segmentWriteOffset sgm' = (image Prod.snd (ks ++ [(sgm', ps)])).length := by
        have hlast := h.resumed.part_eq (j := ks.length) (by simp)
        rw [List.map_append, List.getElem?_append_right (by rw [List.length_map]), List.length_map,
          Nat.sub_self, start_append (Nat.le_refl _), start_length] at hlast
        have hbase' : sgm.baseOffset = (image Prod.snd ks).length :=
          congrArg Prod.fst (Option.some.inj hlast)
        rw [segmentWriteOffset, hbase, hbase', hkeeps'.count, image_snoc, List.length_append]
      rw [← hoffset] at heq
      have htry := mqlogTrywrite_next page { lg with locked := true } hvalue hget hwrite
      refine ⟨_, ks', mqlogWrite_unlocked h.resumed.unlocked hne (htry.trans heq), hwritable, ?_⟩
      rw [himage, image_snoc, image_snoc]
    · -- the last segment takes it
      have hbase : sgm'.baseOffset = sgm.baseOffset := by
        have heq := segmentWrite_baseOffset sgm buf
        rwa [hwrite] at heq
      obtain ⟨addr, hget, hvalue, hresumed⟩ := h.resumed.set_last hkeeps' hbase
      have htry := mqlogTrywrite_room page { lg with locked := true } hvalue hget hwrite
      obtain ⟨es, hloaded⟩ := hresumed.loaded
      refine ⟨_, ks ++ [(sgm', ps ++ [buf])], mqlogWrite_unlocked h.resumed.unlocked hne htry,
        ⟨⟨⟨es, hloaded.calls, hloaded.tree, hloaded.nodup, hloaded.refers⟩, hresumed.bases,
          hresumed.keeps, rfl⟩, fun k hk => ?_, rfl, h.flags, by rw [starts_snoc]; exact hunused⟩,
            ?_⟩
      · rw [List.getLast?_concat] at hk
        obtain rfl := Option.some.inj hk
        exact ⟨hbehind', hsize'.trans hsize, by rw [hflags']; exact hflags⟩
      · rw [image_snoc, image_snoc, List.append_assoc]

/-- **Writes append** to the messages. -/
theorem Writable.writeAll (page : PageSize) (h0 : 0 < size) (hsmall : size < 2 ^ 32)
    (hmod : size % page.bytes = 0) :
    ∀ (bufs : List Buf) {lg : MqLog} {ks : List Kept}, Writable size lg ks →
      (∀ buf ∈ bufs, 1 ≤ buf.1.length ∧ buf.1.length + 2 * headerSize ≤ size) →
      ∃ lg' ks', writeAll page lg bufs = some (lengths bufs, lg') ∧ Writable size lg' ks' ∧
        image Prod.snd ks' = image Prod.snd ks ++ bufs
  | [], lg, ks, h, _ => ⟨lg, ks, rfl, h, (List.append_nil _).symm⟩
  | buf :: bufs, lg, ks, h, hfit => by
    obtain ⟨hpos, hfits⟩ := hfit buf List.mem_cons_self
    obtain ⟨lg₁, ks₁, hwrite, h₁, himage₁⟩ := h.write h0 hsmall hmod (Nat.ne_of_gt hpos) hfits
    obtain ⟨lg₂, ks₂, hrest, h₂, himage₂⟩ := Writable.writeAll page h0 hsmall hmod bufs h₁
      fun b hb => hfit b (List.mem_cons_of_mem _ hb)
    refine ⟨lg₂, ks₂, ?_, h₂, ?_⟩
    · rw [Mqlog.writeAll, hwrite]
      simp only [Option.bind_eq_bind, Option.bind_some, hrest]
      rfl
    · rw [himage₂, himage₁, List.append_assoc, List.singleton_append]

end Writing

end Mqlog
