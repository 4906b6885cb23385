/-
  What the checksum of a message is worth.

  `crc32` looks up what eight shifts of its register would give (`crc32_eq_bitwise`), so that the
  theory of such registers applies to it: a buffer that differs from another one in at most four
  bytes in a row has another checksum (`crc32_ne_of_burst`).

  `segment_write` stores the checksum of the payload before a reader can be given the message.  So,
  whatever the threads do, the checksum in front of a message that a reader has been given tells
  whether up to four bytes in a row of it were damaged since (`checksum_tells`).

    1. The table.  Its entries are computed bit by bit and compared (`crc32Tab_eq`), and a step of
       the loop is then a step of `Lib.Crc`, on the register as a bit vector (`crc32Step_toBitVec`).
    2. Damage.  Two buffers that differ in at most 32 bits in a row lead a register of 32 bits
       apart, and it does not come together again on equal bytes; both are results of the library
       about any register whose polynomial has its lowest coefficient.
    3. The segment.  A message that was returned is shown (`PublishesFrames`), so the header in
       front of it holds the checksum of the payload.

  No function of the repository checks the checksum.  `ChecksumTells` is what a reader that did so
  could rely on.
-/
import Mqlog.Lib.Crc
import Mqlog.SegmentSerial

namespace Mqlog

open Lib (run Along)
open Lib.Crc Lib.Mem

/-! ## The table -/

/-- The polynomial of `crc32.c`. -/
def crc32Polynomial : BitVec 32 := 0xedb88320

/-- The checksum as eight shifts for each byte, without a table. -/
def crc32Bitwise (crc : UInt32) (buf : List UInt8) : UInt32 :=
  ⟨reg crc32Polynomial (crc ^^^ 0xffffffff).toBitVec (buf.map UInt8.toBitVec)⟩ ^^^ 0xffffffff

/-- The entries of the table are eight shifts each. -/
theorem crc32Tab_eq : ∀ i, i < 256 →
    (crc32Tab.getD i 0).toBitVec = shifts crc32Polynomial 8 (BitVec.ofNat 32 i) := by
  decide +kernel

theorem crc32Polynomial_msb : crc32Polynomial.msb = true := by decide

theorem getLsbD_byteMask : ∀ i, i < 32 → (0xff : BitVec 32).getLsbD i = decide (i < 8) := by decide

theorem crc32Step_toBitVec (crc : UInt32) (b : UInt8) :
    (crc32Step crc b).toBitVec = step crc32Polynomial crc.toBitVec b.toBitVec := by
  have hlow : ((crc ^^^ b.toUInt32) &&& 0xff).toNat < 256 := by
    rw [UInt32.toNat_and]
    exact Nat.lt_of_le_of_lt Nat.and_le_right (by decide)
  have hindex : BitVec.ofNat 32 ((crc ^^^ b.toUInt32) &&& 0xff).toNat =
      (crc.toBitVec ^^^ b.toBitVec.setWidth 32) &&& 0xff := BitVec.ofNat_toNat ..
  rw [step_eq_table getLsbD_byteMask, crc32Step, UInt32.toBitVec_xor, crc32Tab_eq _ hlow, hindex]
  rfl

theorem crc32Step_foldl (buf : List UInt8) (crc : UInt32) :
    (buf.foldl crc32Step crc).toBitVec =
      reg crc32Polynomial crc.toBitVec (buf.map UInt8.toBitVec) := by
  induction buf generalizing crc with
  | nil => rfl
  | cons b buf ih =>
    rw [List.foldl_cons, ih, crc32Step_toBitVec]
    rfl

/-- **The table changes nothing**: `crc32` is the checksum with the polynomial `edb88320`, bit by
    bit. -/
theorem crc32_eq_bitwise (crc : UInt32) (buf : List UInt8) :
    crc32 crc buf = crc32Bitwise crc buf := by
  have hreg : buf.foldl crc32Step (crc ^^^ 0xffffffff) =
      ⟨reg crc32Polynomial (crc ^^^ 0xffffffff).toBitVec (buf.map UInt8.toBitVec)⟩ :=
    UInt32.toBitVec_inj.mp (crc32Step_foldl buf _)
  rw [crc32, hreg, crc32Bitwise]

/-- The checksum of the well-known check sequence `123456789`. -/
example : crc32Bitwise 0 [0x31, 0x32, 0x33, 0x34, 0x35, 0x36, 0x37, 0x38, 0x39] = 0xcbf43926 := by
  decide +kernel

/-! ## Damage -/

/-- **A change of at most four bytes in a row changes the checksum.** -/
theorem crc32_ne_of_burst {crc : UInt32} {before burst burst' after : List UInt8}
    (hlen : burst.length = burst'.length) (hfour : burst.length ≤ 4) (hne : burst ≠ burst') :
    crc32 crc (before ++ burst ++ after) ≠ crc32 crc (before ++ burst' ++ after) := by
  intro h
  rw [crc32_eq_bitwise, crc32_eq_bitwise, crc32Bitwise, crc32Bitwise] at h
  have hreg := congrArg UInt32.toBitVec ((UInt32.xor_left_inj _).mp h)
  simp only [List.map_append] at hreg
  refine reg_ne_of_burst crc32Polynomial_msb ?_ ?_ (fun heq => hne ?_) hreg
  · rw [List.length_map, List.length_map, hlen]
  · rw [List.length_map]
    omega
  · exact List.map_injective_iff.mpr (fun _ _ => UInt8.toBitVec_inj.mp) heq

/-- `hdr->crc32`. -/
def hdrCrc32 (m : Nat → UInt8) (hdr : Nat) : Nat := get32 m (hdr + 8)

/-- Whatever happens to at most four bytes in a row behind the header at `hdr`, the checksum in the
    header is that of the `n` bytes behind it if and only if these are still the same. -/
def ChecksumTells (m : Nat → UInt8) (hdr n : Nat) : Prop :=
  ∀ (m' : Nat → UInt8) (a : Nat), hdr + headerSize ≤ a → (∀ p, p < a ∨ a + 4 ≤ p → m' p = m p) →
    (hdrCrc32 m' hdr = (crc32 0 (load m' (hdr + headerSize) n)).toNat ↔
      load m' (hdr + headerSize) n = load m (hdr + headerSize) n)

theorem HeaderAt.crc_eq {m : Nat → UInt8} {hdr flags size crc : Nat}
    (h : HeaderAt m hdr flags size crc) (hcrc : crc < 2 ^ 32) : hdrCrc32 m hdr = crc := by
  refine get32_of_load ?_ hcrc
  have hpart := congrArg (fun l => l.drop 8) h
  simpa [load, headerSize, headerBytes, le16, le32, List.range_succ, Nat.add_assoc] using hpart

/-- Memories that differ in at most four bytes in a row, and have the same checksum. -/
theorem load_eq_of_crc32 {m m' : Nat → UInt8} {pos n a : Nat} (hpos : pos ≤ a)
    (hsame : ∀ p, p < a ∨ a + 4 ≤ p → m' p = m p)
    (hcrc : crc32 0 (load m' pos n) = crc32 0 (load m pos n)) : load m' pos n = load m pos n := by
  rcases Nat.lt_or_ge (pos + n) a with hbefore | hle
  · exact load_congr fun p _ hp => hsame p (.inl (by omega))
  · -- the bytes in front of the four, those of them that are below `n`, and the bytes behind
    obtain ⟨n₁, n₂, n₃, hn, ha, hfour, hafter⟩ : ∃ n₁ n₂ n₃, n = n₁ + n₂ + n₃ ∧ pos + n₁ = a ∧
      n₂ ≤ 4 ∧
        (n₃ ≠ 0 → n₂ = 4) := by
      refine ⟨a - pos, min 4 (pos + n - a), pos + n - a - 4, ?_, ?_, Nat.min_le_left .., ?_⟩ <;>
        omega
    have hfront : load m' pos n₁ = load m pos n₁ :=
      load_congr fun p _ hp => hsame p (.inl (by omega))
    have hback : load m' (pos + (n₁ + n₂)) n₃ = load m (pos + (n₁ + n₂)) n₃ :=
      load_congr fun p hlo hhi => hsame p (.inr (by omega))
    rw [hn, load_add, load_add, load_add m, load_add m, hfront, hback] at hcrc ⊢
    by_contra hne
    refine crc32_ne_of_burst ?_ ?_ (fun heq => hne ?_) hcrc
    · rw [length_load, length_load]
    · rw [length_load]
      exact hfour
    · rw [heq]

/-- The bytes of a frame have its checksum in front of the payload. -/
theorem checksumTells_of_frame {m : Nat → UInt8} {hdr : Nat} {buf : Buf}
    (h : load m hdr (headerSize + buf.1.length) = frame buf) :
    ChecksumTells m hdr buf.1.length := by
  intro m' a ha hsame
  rw [frame, load_add] at h
  obtain ⟨hhdr, hbuf⟩ := List.append_inj h (by rw [length_load, length_headerBytes])
  have hheader : HeaderAt m' hdr headerFlagsReady (headerSize + buf.1.length)
    (crc32 0 buf.1).toNat :=
    (load_congr fun p _ hp => hsame p (.inl (by omega))).trans hhdr
  rw [hheader.crc_eq (UInt32.toNat_lt _), hbuf]
  constructor
  · intro hcrc
    have hload : load m' (hdr + headerSize) buf.1.length = load m (hdr + headerSize) buf.1.length :=
      load_eq_of_crc32 ha hsame (by rw [hbuf]; exact (UInt32.toNat_inj.mp hcrc).symm)
    rw [hload, hbuf]
  · intro hload
    rw [hload]

/-- The checksum tells as long as no claim wraps the write offset around. -/
theorem checksum_tells_of_wrapsClaim {page : PageSize} {base size : Nat} {sgm : Segment}
    {files : SegmentFiles} (hopen : segmentOpen page .ok ⟨none, none⟩ base size sgmRddrt =
      (0, some sgm, files))
    {n : Nat} {is : List (Nat × SegAct)} {s : SegState}
    (hrun : run segStep (segInit sgm n) is = some s)
    (hwrap : Along segStep (fun s i => wrapsClaim s i = false) (segInit sgm n) is) {r : Returned}
    (hr : r ∈ s.returned) (hrc : 0 ≤ r.rc) :
    ∃ hdr, r.fr = ⟨some hdr, some (hdr + headerSize)⟩ ∧
      ChecksumTells s.sgm.buffer hdr r.rc.toNat := by
  obtain ⟨-, -, rfl, -⟩ := segmentOpen_new_size hopen
  have hinv : PublishInv s :=
    Lib.run_invariant (I := PublishInv) (fun _ _ _ hok hinv hstep => hinv.step hok hstep) is _
      _ hwrap
      (.init n base size) hrun
  obtain ⟨hdr, buf, hshown, hlen, hfr⟩ := hinv.returned r hr hrc
  refine ⟨hdr, hfr, ?_⟩
  rw [hlen, Int.toNat_natCast]
  exact checksumTells_of_frame (hinv.claims.shown_bytes hshown).2

/-- **The stored checksum tells of damage**: in every interleaving of threads that write to a new
    segment smaller than `2 ^ 32` and read it, opened with `SGM_RDDRT`, in which no thread reads the
    write offset for a claim after the seal, for each message that a reader has been given, the
    checksum in its header tells whether up to four bytes in a row of it have changed since. -/
theorem checksum_tells {page : PageSize} {base size : Nat} {sgm : Segment} {files : SegmentFiles}
    (hopen : segmentOpen page .ok ⟨none, none⟩ base size sgmRddrt = (0, some sgm, files))
    (hsmall : size < 2 ^ 32) {n : Nat} {is : List (Nat × SegAct)} {s : SegState}
    (hrun : run segStep (segInit sgm n) is = some s)
    (hreads : Along segStep (fun s i => readsSealed s i = false) (segInit sgm n) is) {r : Returned}
    (hr : r ∈ s.returned) (hrc : 0 ≤ r.rc) :
    ∃ hdr, r.fr = ⟨some hdr, some (hdr + headerSize)⟩ ∧
      ChecksumTells s.sgm.buffer hdr r.rc.toNat := by
  obtain ⟨h0, hmod, hsgm, -⟩ := segmentOpen_new_size hopen
  have h4096 := page.le_of_mod h0 hmod
  have h12 : headerSize = 12 := rfl
  subst hsgm
  refine checksum_tells_of_wrapsClaim hopen hrun ?_ hr hrc
  exact along_wrapsClaim hsmall (.init n (by omega)) hrun hreads

/-- A message of two bytes is written, and read in the meantime. -/
theorem checksum_tells_of_two :
    ∃ s r, run segStep (segInit (Segment.fresh 0 4096 sgmRddrt) 2) writeAndRead = some s ∧
      r ∈ s.returned ∧
      r.rc = 2 ∧ ∃ hdr, r.fr = ⟨some hdr, some (hdr + headerSize)⟩ ∧
        ChecksumTells s.sgm.buffer hdr r.rc.toNat := by
  have hopen : segmentOpen page4096 .ok ⟨none, none⟩ 0 4096 sgmRddrt =
      (0, some (Segment.fresh 0 4096 sgmRddrt), _) := segmentOpen_new 0 _ (by decide) (by decide)
  have hruns : (run segStep (segInit (Segment.fresh 0 4096 sgmRddrt) 2) writeAndRead).map
      (fun s => s.returned.map Returned.rc) = some [2] := by decide +kernel
  obtain ⟨s, hrun, hs⟩ := Option.map_eq_some_iff.mp hruns
  obtain ⟨r, hr, hrc⟩ : ∃ r ∈ s.returned, r.rc = 2 :=
    List.mem_map.mp (by rw [hs]; exact List.mem_singleton_self 2)
  exact ⟨s, r, hrun, hr, hrc, checksum_tells hopen (by decide) hrun (by decide +kernel) hr
    (by rw [hrc]; decide)⟩

end Mqlog
