/-
  The frame header of `prot.h` and `prot.c`, as bytes of a mapped file.

  `struct header` is twelve bytes: `flags` (2) at 0, `version` (1) at 2, `pad` (1) at 3, `size` (4)
  at 4 and `crc32` (4) at 8, little-endian as on every platform the repository builds for.  A header
  pointer is the position of its first byte in the mapping.

  The fields are read and written one by one, as the code does it; what matters to the order of the
  stores is in `SegmentThreads`.  A frame is a header and its payload (`frame`), an end-of-segment
  frame is a header alone, whose checksum is never written (`eosFrame`).

  A payload is a list of bytes with a length that an object of C can have (`Buf`), so that sizes do
  not wrap around modulo `2 ^ 64` when a header is added.
-/
import Mqlog.Crc32
import Mqlog.Lib.Mem

namespace Mqlog

open Lib.Mem

/-- `sizeof(struct header)`. -/
def headerSize : Nat := 12

def headerFlagsEmpty : Nat := 0x0000
def headerFlagsReady : Nat := 0xbeef
def headerFlagsEos : Nat := 0xaaaa
def headerVersion : UInt8 := 0
def headerPad : UInt8 := 0

/-- `hdr->flags`. -/
def hdrFlags (m : Nat → UInt8) (hdr : Nat) : Nat := get16 m hdr

/-- `hdr->size`. -/
def hdrSize (m : Nat → UInt8) (hdr : Nat) : Nat := get32 m (hdr + 4)

/-- `hdr->flags = flags`. -/
def setFlags (m : Nat → UInt8) (hdr flags : Nat) : Nat → UInt8 := store m hdr (le16 flags)

/-- `hdr->size = size`. -/
def setSize (m : Nat → UInt8) (hdr size : Nat) : Nat → UInt8 := store m (hdr + 4) (le32 size)

/-- `hdr->crc32 = crc`. -/
def setCrc32 (m : Nat → UInt8) (hdr crc : Nat) : Nat → UInt8 := store m (hdr + 8) (le32 crc)

/-- `header_init`. -/
def headerInit (m : Nat → UInt8) (hdr : Nat) : Nat → UInt8 :=
  store (store (setFlags m hdr headerFlagsEmpty) (hdr + 2) [headerVersion]) (hdr + 3) [headerPad]

/-- `prot_is_header`. -/
def protIsHeader (m : Nat → UInt8) (hdr : Nat) : Bool :=
  hdrFlags m hdr = headerFlagsReady ∨ hdrFlags m hdr = headerFlagsEos

/-- `frame_payload_size`. -/
def framePayloadSize (m : Nat → UInt8) (hdr : Nat) : Nat :=
  (hdrSize m hdr + (2 ^ 64 - headerSize)) % 2 ^ 64

/-! ## Frames -/

/-- A payload: C allows no object of `2 ^ 63` bytes or more. -/
abbrev Buf : Type := { l : List UInt8 // l.length < 2 ^ 63 }

/-- A payload of `n` equal bytes. -/
def bytes (n : Nat) (c : UInt8) (h : n < 2 ^ 63) : Buf :=
  ⟨List.replicate n c, by rwa [List.length_replicate]⟩

theorem one_lt_two_pow : 1 < 2 ^ 63 := by decide

/-- A payload of one byte. -/
def oneByte (c : UInt8) : Buf := bytes 1 c one_lt_two_pow

@[simp] theorem length_bytes (n : Nat) (c : UInt8) (h : n < 2 ^ 63) : (bytes n c h).1.length = n :=
  List.length_replicate

/-- The bytes of a header. -/
def headerBytes (flags size crc : Nat) : List UInt8 :=
  le16 flags ++ [headerVersion, headerPad] ++ le32 size ++ le32 crc

/-- The bytes a written frame occupies. -/
def frame (buf : Buf) : List UInt8 :=
  headerBytes headerFlagsReady (headerSize + buf.1.length) (crc32 0 buf.1).toNat ++ buf.1

/-- The bytes of an end-of-segment frame in fresh memory: its checksum is never written. -/
def eosFrame : List UInt8 := headerBytes headerFlagsEos headerSize 0

@[simp] theorem length_headerBytes (flags size crc : Nat) :
    (headerBytes flags size crc).length = headerSize := rfl

theorem length_frame (buf : Buf) : (frame buf).length = headerSize + buf.1.length := by
  rw [frame, List.length_append, length_headerBytes]

@[simp] theorem length_eosFrame : eosFrame.length = headerSize := rfl

theorem headerInit_eq {m : Nat → UInt8} {hdr : Nat} :
    headerInit m hdr = store m hdr (le16 headerFlagsEmpty ++ [headerVersion, headerPad]) := by
  rw [headerInit, setFlags, store_append (b := hdr + 2) (by rw [length_le16]),
    store_append (b := hdr + 3) (by simp), List.append_assoc]
  rfl

/-- The stores of `mark_eos`: all of a header but its checksum. -/
theorem store_header_head {m : Nat → UInt8} {hdr flags size : Nat} :
    setFlags (setSize (headerInit m hdr) hdr size) hdr flags =
      store m hdr (le16 flags ++ [headerVersion, headerPad] ++ le32 size) := by
  rw [setFlags, setSize, headerInit_eq, store_append (b := hdr + 4) (by simp), List.append_assoc,
    store_prefix (by rw [length_le16, length_le16]), List.append_assoc]

/-- The stores of `segment_write`: a whole header. -/
theorem store_header {m : Nat → UInt8} {hdr flags size crc : Nat} :
    setFlags (setSize (setCrc32 (headerInit m hdr) hdr crc) hdr size) hdr flags =
      store m hdr (headerBytes flags size crc) := by
  have hcrc : setFlags (setSize (setCrc32 (headerInit m hdr) hdr crc) hdr size) hdr flags =
      setCrc32 (setFlags (setSize (headerInit m hdr) hdr size) hdr flags) hdr crc := by
    rw [setSize, setCrc32, store_comm (Or.inr (by rw [length_le32])), setFlags,
      store_comm (Or.inr (by rw [length_le16]; omega))]
    rfl
  rw [hcrc, store_header_head, setCrc32, store_append (b := hdr + 8) (by simp)]
  rfl

/-! ## Headers in memory -/

/-- The memory holds a header at `hdr`. -/
def HeaderAt (m : Nat → UInt8) (hdr flags size crc : Nat) : Prop :=
  load m hdr headerSize = headerBytes flags size crc

theorem HeaderAt.flags_eq {m : Nat → UInt8} {hdr flags size crc : Nat}
    (h : HeaderAt m hdr flags size crc) (hflags : flags < 2 ^ 16) : hdrFlags m hdr = flags := by
  refine get16_of_load ?_ hflags
  have htake := congrArg (List.take 2) h
  simpa [load, headerSize, headerBytes, le16, le32, List.range_succ] using htake

theorem HeaderAt.size_eq {m : Nat → UInt8} {hdr flags size crc : Nat}
    (h : HeaderAt m hdr flags size crc) (hsize : size < 2 ^ 32) : hdrSize m hdr = size := by
  refine get32_of_load ?_ hsize
  have hpart := congrArg (fun l => (l.drop 4).take 4) h
  simpa [load, headerSize, headerBytes, le16, le32, List.range_succ, Nat.add_assoc] using hpart

end Mqlog
