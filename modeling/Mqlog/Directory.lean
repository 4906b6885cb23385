/-
  The directory of a log: the names of its files, and what `load_segments` reads off them.

  A segment has two files, `<base offset>.log` and `<base offset>.idx`.  `%jd` prints the unsigned
  base offset as a signed word, `strtoll` reads a signed word back, up to the first character that
  is not a digit and no further than a `long long` goes; for every 64-bit base offset this is a
  round trip (`strtoll_dataFilename`).  The files of two segments never share a name
  (`files_put_of_ne`).

    1. Names: `data_filename`, `index_filename` and `has_suffix` on lists of characters, and
       `strtoll` with what the C library does around the digits: blanks in front, a sign,
       `LLONG_MAX` and `LLONG_MIN` for what is too large or too small.
    2. `Dir`: the files by name.  A directory is two functions, one for the files with bytes and one
       for those with index entries, as no file is ever read as the other kind; a segment is put
       into it as a pair of files (`Dir.put`), and `Dir.Only` lists the base offsets that there are
       files for.
    3. `Lists`: what `readdir` may return.  Every file comes once, in an order that nothing is known
       about; other names may come as well, as long as `load_segments` passes over them.

  The crux of the round trip is that the digits of a number are read back as the number, whatever
  non-digit comes behind them (`digits_toDigits`), which is about the printing and the reading loop
  together; the sign and the suffix are cases around it.

  Offsets count messages.  They stay below `2 ^ 64` in a log, so the sum of a base offset and a
  relative offset is not reduced modulo `2 ^ 64`.  A number outside 64 bits is no `uint64_t`, and
  there is no text that `%jd` prints for it; here it has a name of its own, from which no number is
  read.
-/
import Mathlib.Logic.Function.Basic
import Mqlog.Segment

namespace Mqlog

/-! ## Names -/

/-- `%jd` of a `uint64_t`. -/
def printOffset (offset : Nat) : List Char :=
  if offset < 2 ^ 63 then Nat.toDigits 10 offset
  else if offset < 2 ^ 64 then '-' :: Nat.toDigits 10 (2 ^ 64 - offset)
  -- not a `uint64_t`
  else '?' :: Nat.toDigits 10 offset

/-- `data_filename`. -/
def dataFilename (offset : Nat) : List Char := printOffset offset ++ ['.', 'l', 'o', 'g']

/-- `index_filename`. -/
def indexFilename (offset : Nat) : List Char := printOffset offset ++ ['.', 'i', 'd', 'x']

/-- `isspace` of the C locale. -/
def isSpace (c : Char) : Bool := c = ' ' ∨ ('\t' ≤ c ∧ c ≤ '\r')

/-- The value of the digits in front. -/
def digits (s : List Char) : Nat := Nat.ofDigitChars 10 (s.takeWhile Char.isDigit) 0

/-- `strtoll` in base 10, stored in a `uint64_t`.  What is above `LLONG_MAX` or below `LLONG_MIN` is
    read as that number. -/
def strtoll (s : List Char) : Nat :=
  match s.dropWhile isSpace with
  | '-' :: r => (2 ^ 64 - min (digits r) (2 ^ 63)) % 2 ^ 64
  | '+' :: r => min (digits r) (2 ^ 63 - 1)
  | r => min (digits r) (2 ^ 63 - 1)

/-- `has_suffix`. -/
def hasSuffix (str suffix : List Char) : Bool :=
  if str.length < suffix.length then false
  else str.drop (str.length - suffix.length) = suffix

/-- `load_segments` opens the files with this suffix. -/
def isLog (name : List Char) : Bool := hasSuffix name ['.', 'l', 'o', 'g']

/-! ## The directory -/

/-- The files of a directory by name: those that hold bytes and those that hold index entries. -/
structure Dir where
  data : List Char → Option (File UInt8)
  index : List Char → Option (File Nat)

namespace Dir

/-- An empty directory. -/
def empty : Dir := ⟨fun _ => none, fun _ => none⟩

/-- The files of the segment at a base offset. -/
def files (dir : Dir) (baseOffset : Nat) : SegmentFiles :=
  ⟨dir.data (dataFilename baseOffset), dir.index (indexFilename baseOffset)⟩

/-- The directory with the files of one segment replaced. -/
def put (dir : Dir) (baseOffset : Nat) (files : SegmentFiles) : Dir where
  data := Function.update dir.data (dataFilename baseOffset) files.data
  index := Function.update dir.index (indexFilename baseOffset) files.index

/-- `file_size`: `none` is the return code `-1`. -/
def fileSize (dir : Dir) (name : List Char) : Option Nat := (dir.data name).map File.size

end Dir

/-- `readdir` gives every file of the directory once, in some order; what else it gives does not end
    in `.log`. -/
def Lists (names : List (List Char)) (dir : Dir) : Prop :=
  (names.filter isLog).Nodup ∧ ∀ name, isLog name → (name ∈ names ↔ (dir.data name).isSome)

/-! ## Reading a name back -/

/-- The leading digits of a printed number with something else behind it. -/
theorem takeWhile_digits {n : Nat} {r : List Char} (hr : ∀ c ∈ r.head?, c.isDigit = false) :
    (Nat.toDigits 10 n ++ r).takeWhile Char.isDigit = Nat.toDigits 10 n := by
  have hall : ∀ c ∈ Nat.toDigits 10 n, c.isDigit = true := fun c hc =>
    Nat.isDigit_of_mem_toDigits (by decide) (by decide) hc
  rw [List.takeWhile_append_of_pos hall]
  cases r with
  | nil => simp
  | cons c r => rw [List.takeWhile_cons_of_neg (by rw [hr c rfl]; decide), List.append_nil]

/-- A printed number is read back, whatever else is behind it. -/
theorem digits_toDigits (n : Nat) {r : List Char} (hr : ∀ c ∈ r.head?, c.isDigit = false) :
    digits (Nat.toDigits 10 n ++ r) = n := by
  rw [digits, takeWhile_digits hr, Nat.ofDigitChars_ten_toDigits]

/-- A digit is neither a space nor a sign. -/
theorem not_space_of_isDigit {c : Char} (h : c.isDigit = true) :
    isSpace c = false ∧ c ≠ '-' ∧ c ≠ '+' := by
  have hle : ∀ d : Char, (d.val < 48 ∨ 57 < d.val) → c ≠ d := by
    rintro d hd rfl
    rw [Char.isDigit, Bool.and_eq_true, decide_eq_true_eq, decide_eq_true_eq] at h
    rcases hd with hd | hd
    · exact absurd h.1 (UInt32.not_le.mpr hd)
    · exact absurd h.2 (UInt32.not_le.mpr hd)
  refine ⟨?_, hle '-' (by decide), hle '+' (by decide)⟩
  rw [isSpace, decide_eq_false_iff_not]
  rintro (rfl | ⟨-, hc⟩)
  · exact hle ' ' (by decide) rfl
  · have hc' : c.val ≤ 13 := hc
    exact hle c (.inl (UInt32.lt_of_le_of_lt hc' (by decide))) rfl

/-- A printed number begins with a digit. -/
theorem exists_toDigits (n : Nat) : ∃ c cs, Nat.toDigits 10 n = c :: cs ∧ c.isDigit = true := by
  obtain ⟨c, cs, hcs⟩ := List.exists_cons_of_ne_nil (Nat.toDigits_ne_nil (b := 10) (n := n))
  exact ⟨c, cs, hcs, Nat.isDigit_of_mem_toDigits (by decide) (by decide) (hcs ▸ List.mem_cons_self)⟩

/-- A number without a sign is read up to `LLONG_MAX`. -/
theorem strtoll_digits {s : List Char} {c : Char} {cs : List Char} (hs : s = c :: cs)
    (hspace : isSpace c = false) (hminus : c ≠ '-') (hplus : c ≠ '+') :
    strtoll s = min (digits s) (2 ^ 63 - 1) := by
  rw [strtoll, hs, List.dropWhile_cons_of_neg (by rw [hspace]; decide)]
  split
  · rename_i heq
    exact absurd (List.cons.inj heq).1 hminus
  · rename_i heq
    exact absurd (List.cons.inj heq).1 hplus
  · rfl

/-- **Names can be read back**, those of 64-bit offsets; from the other ones nothing is read. -/
theorem strtoll_printOffset (offset : Nat) {r : List Char} (hr : ∀ c ∈ r.head?, c.isDigit = false) :
    strtoll (printOffset offset ++ r) = if offset < 2 ^ 64 then offset else 0 := by
  rw [printOffset]
  split
  · rename_i hsmall
    obtain ⟨c, cs, hcs, hdigit⟩ := exists_toDigits offset
    obtain ⟨hspace, hminus, hplus⟩ := not_space_of_isDigit hdigit
    have hread := digits_toDigits offset hr
    rw [strtoll_digits (by rw [hcs, List.cons_append]) hspace hminus hplus, hread,
      if_pos (by omega)]
    omega
  split
  · rename_i hbig
    rw [List.cons_append, strtoll, List.dropWhile_cons_of_neg (by decide)]
    simp only [digits_toDigits _ hr]
    omega
  · rw [List.cons_append, strtoll_digits rfl (by decide) (by decide) (by decide), digits,
      List.takeWhile_cons_of_neg (by decide)]
    rfl

/-- What a name was printed for: a sign or a mark, and the digits behind it. -/
def printedOffset : List Char → Nat
  | '-' :: s => 2 ^ 64 - digits s
  | '?' :: s => digits s
  | s => digits s

/-- The offset of a name that starts with a digit. -/
theorem printedOffset_digits {s : List Char} {c : Char} {cs : List Char} (hs : s = c :: cs)
    (hdigit : c.isDigit = true) : printedOffset s = digits s := by
  rw [hs, printedOffset.eq_def]
  split
  · rename_i heq
    exact absurd (List.cons.inj heq).1 (not_space_of_isDigit hdigit).2.1
  · rename_i heq
    rw [(List.cons.inj heq).1] at hdigit
    exact absurd hdigit (by decide)
  · rfl

/-- **A name tells its offset**, also where `strtoll` does not. -/
theorem printedOffset_printOffset (offset : Nat) {r : List Char}
    (hr : ∀ c ∈ r.head?, c.isDigit = false) : printedOffset (printOffset offset ++ r) = offset := by
  rw [printOffset]
  split
  · obtain ⟨c, cs, hcs, hdigit⟩ := exists_toDigits offset
    rw [printedOffset_digits (by rw [hcs, List.cons_append]) hdigit, digits_toDigits offset hr]
  split
  · rw [List.cons_append, printedOffset, digits_toDigits _ hr]
    omega
  · exact digits_toDigits offset hr

/-- `strtoll` of the name of a data file, for an offset of any size. -/
theorem strtoll_dataFilename_eq (offset : Nat) :
    strtoll (dataFilename offset) = if offset < 2 ^ 64 then offset else 0 :=
  strtoll_printOffset offset (by simp)

/-- The name of a data file gives the base offset back. -/
theorem strtoll_dataFilename {offset : Nat} (h : offset < 2 ^ 64) :
    strtoll (dataFilename offset) = offset := by
  rw [strtoll_dataFilename_eq, if_pos h]

/-- The offset printed in the name of a data file. -/
theorem printedOffset_dataFilename (offset : Nat) : printedOffset (dataFilename offset) = offset :=
  printedOffset_printOffset offset (by simp)

/-- Segments at different offsets have different data files. -/
theorem dataFilename_injective : Function.Injective dataFilename :=
  Function.LeftInverse.injective printedOffset_dataFilename

/-- Segments at different offsets have different index files. -/
theorem indexFilename_injective : Function.Injective indexFilename :=
  Function.LeftInverse.injective fun offset => printedOffset_printOffset offset (by simp)

/-- Data files are the files that `load_segments` looks for. -/
theorem isLog_dataFilename (offset : Nat) : isLog (dataFilename offset) = true := by
  rw [isLog, hasSuffix, dataFilename, List.length_append, if_neg (by omega), Nat.add_sub_cancel,
    List.drop_left']
  · exact decide_eq_true rfl
  · rfl

namespace Dir

/-- What is put into a directory is found there. -/
theorem files_put (dir : Dir) (baseOffset : Nat) (files : SegmentFiles) :
    (dir.put baseOffset files).files baseOffset = files := by
  rw [put, Dir.files]
  simp only [Function.update_self]

/-- Putting back what is there changes nothing. -/
theorem put_files (dir : Dir) (baseOffset : Nat) :
    dir.put baseOffset (dir.files baseOffset) = dir := by
  rw [put, Dir.files]
  simp only [Function.update_eq_self]

/-- The files of the other segments stay as they are. -/
theorem files_put_of_ne (dir : Dir) {baseOffset offset : Nat} (files : SegmentFiles)
    (h : offset ≠ baseOffset) : (dir.put baseOffset files).files offset = dir.files offset := by
  rw [put, Dir.files]
  simp only [Function.update_of_ne (dataFilename_injective.ne h),
    Function.update_of_ne (indexFilename_injective.ne h)]
  rfl

/-- The directory has no other files than those of the segments at these base offsets. -/
structure Only (dir : Dir) (bases : List Nat) : Prop where
  data : ∀ name, (dir.data name).isSome → ∃ b ∈ bases, name = dataFilename b
  index : ∀ name, (dir.index name).isSome → ∃ b ∈ bases, name = indexFilename b

/-- An empty directory has no segments. -/
theorem only_empty : empty.Only [] :=
  ⟨fun _ h => absurd h Bool.false_ne_true, fun _ h => absurd h Bool.false_ne_true⟩

/-- More segments are allowed. -/
theorem Only.mono {dir : Dir} {bases bases' : List Nat} (h : dir.Only bases)
    (hsub : bases ⊆ bases') : dir.Only bases' :=
  ⟨fun name hname => (h.data name hname).imp fun _ hb => ⟨hsub hb.1, hb.2⟩,
    fun name hname => (h.index name hname).imp fun _ hb => ⟨hsub hb.1, hb.2⟩⟩

/-- Files at one of the base offsets may be replaced. -/
theorem Only.put {dir : Dir} {bases : List Nat} (h : dir.Only bases) {b : Nat} (hb : b ∈ bases)
    (files : SegmentFiles) : (dir.put b files).Only bases := by
  constructor
  · intro name hname
    by_cases hb' : name = dataFilename b
    · exact ⟨b, hb, hb'⟩
    · simp only [Dir.put, Function.update_of_ne hb'] at hname
      exact h.data name hname
  · intro name hname
    by_cases hb' : name = indexFilename b
    · exact ⟨b, hb, hb'⟩
    · simp only [Dir.put, Function.update_of_ne hb'] at hname
      exact h.index name hname

/-- There are no files at any other base offset. -/
theorem Only.files_eq_none {dir : Dir} {bases : List Nat} (h : dir.Only bases) {b : Nat}
    (hb : b ∉ bases) : dir.files b = ⟨none, none⟩ := by
  have hdata : dir.data (dataFilename b) = none := by
    rw [← Option.not_isSome_iff_eq_none]
    intro hsome
    obtain ⟨b', hb', heq⟩ := h.data _ hsome
    exact hb (dataFilename_injective heq ▸ hb')
  have hindex : dir.index (indexFilename b) = none := by
    rw [← Option.not_isSome_iff_eq_none]
    intro hsome
    obtain ⟨b', hb', heq⟩ := h.index _ hsome
    exact hb (indexFilename_injective heq ▸ hb')
  rw [Dir.files, hdata, hindex]

end Dir

end Mqlog
