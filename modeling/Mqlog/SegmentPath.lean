/-
  The paths of the files of a segment.

  `open_data` and `open_index` print the name of the file into one buffer and the path into
  another.  `snprintf` returns the length of the text without the `NUL` behind it, and cuts the text
  off where the buffer ends; the code takes a length that equals the size of the buffer for one that
  fits.  For the name (at most 24 of 64 characters) that makes no difference.  For the path it does:
  at exactly 256 characters the last one is cut off, and the file is not found again
  (`path_round_trip_iff`).

  There are three ranges of the length of a path:

    * below 256 characters it is printed in full;
    * at 256 the check `n <= (int)len` lets it pass, and what is opened is one character short: a
      data file that ends in `.lo`, which `load_segments` will not look at;
    * above that `append_file_to_dir` returns an error, and no file is opened.

  So the path that is opened is the full one exactly when its length is not that of the buffer
  (`openPath_full_iff`), where a path that is refused counts as opened under no wrong name.  The
  index file has the same length of path as the data file, since both suffixes have four characters
  (`length_indexFilename`).

  The base offset is read back from the name by `strtoll`, for which the module `Directory` has the
  round trip; here it is applied to the name under which `readdir` lists the file.
-/
import Mqlog.Directory

namespace Mqlog

/-! ## Building a path -/

/-- `snprintf` into a buffer of `len` bytes: the length of the text (`-1` when that is no `int`),
    and the string in the buffer. -/
def snprintf (len : Nat) (text : List Char) : Int × List Char :=
  (if text.length < 2 ^ 31 then text.length else -1, text.take (len - 1))

/-- What `index_filename` and `data_filename` make of the text: `none` is `-1`. -/
def printFilename (len : Nat) (text : List Char) : Option (List Char) :=
  let (n, filename) := snprintf len text
  if n ≤ len then some filename else none

/-- The path of a directory.  `append_file_to_dir` looks at its last character. -/
def DirPath : Type := { dir : List Char // dir ≠ [] }

/-- The path ends in a `/`. -/
def DirPath.endsInSlash (dir : DirPath) : Bool := dir.val.getLast dir.property = '/'

/-- `append_file_to_dir`: `none` is `-1`. -/
def appendFileToDir (len : Nat) (dir : DirPath) (file : List Char) : Option (List Char) :=
  let (n, buf) :=
    if dir.endsInSlash then snprintf len (dir.val ++ file) else snprintf len (dir.val ++
      '/' :: file)
  if n = -1 then none
  else if n ≤ len then some buf
  else none

/-- `open_index` and `open_data` up to `open`: the path that they open. -/
def openPath (ensureDirectory : Bool) (dir : DirPath) (filename : List Char) :
    Except Int (List Char) :=
  match printFilename 64 filename with
  | none => .error ELSOFLW
  | some filename =>
    if ensureDirectory = false then .error ELFLEOP
    else
      match appendFileToDir 256 dir filename with
      | none => .error ELSOFLW
      | some file => .ok file

/-- `open_data` up to `open`. -/
def openDataPath (ensureDirectory : Bool) (dir : DirPath) (offset : Nat) : Except Int (List Char) :=
  openPath ensureDirectory dir (dataFilename offset)

/-- `open_index` up to `open`. -/
def openIndexPath (ensureDirectory : Bool) (dir : DirPath) (offset : Nat) :
    Except Int (List Char) :=
  openPath ensureDirectory dir (indexFilename offset)

/-- The name under which `readdir` lists the file at a path. -/
def entryName (path : List Char) : List Char := (path.reverse.takeWhile (· ≠ '/')).reverse

/-! ## What the path should be -/

/-- The directory, a `/` unless it ends in one, and the name. -/
def joined (dir : DirPath) (name : List Char) : List Char :=
  dir.val ++ (if dir.endsInSlash then [] else ['/']) ++ name

/-- The files are opened under their full paths, and the data file is listed under a name from which
    `load_segments` reads the base offset. -/
def PathRoundTrips (dir : DirPath) (offset : Nat) : Prop :=
  (∀ ensureDirectory path, openDataPath ensureDirectory dir offset = .ok path →
    path = joined dir (dataFilename offset) ∧ isLog (entryName path) = true ∧
      strtoll (entryName path) = offset) ∧
  ∀ ensureDirectory path, openIndexPath ensureDirectory dir offset = .ok path →
    path = joined dir (indexFilename offset)

/-! ## Names -/

/-- A 64-bit number has at most twenty characters. -/
theorem length_printOffset {offset : Nat} (h : offset < 2 ^ 64) :
    (printOffset offset).length ≤ 20 := by
  have hdigits : ∀ n, n < 10 ^ 19 → (Nat.toDigits 10 n).length ≤ 19 := fun n hn =>
    (Nat.length_toDigits_le_iff (by decide) (by decide)).mpr hn
  rw [printOffset]
  split
  · have := hdigits offset (by omega)
    omega
  · have := hdigits (2 ^ 64 - offset) (by omega)
    rw [List.length_cons]
    omega

theorem length_dataFilename {offset : Nat} (h : offset < 2 ^ 64) :
    (dataFilename offset).length ≤ 24 := by
  have := length_printOffset h
  rw [dataFilename, List.length_append]
  show _ + 4 ≤ 24
  omega

/-- Both names have the same length. -/
theorem length_indexFilename (offset : Nat) :
    (indexFilename offset).length = (dataFilename offset).length := by
  rw [indexFilename, dataFilename, List.length_append, List.length_append]
  rfl

/-- A name that fits is printed in full. -/
theorem printFilename_fits {len : Nat} {text : List Char} (h : text.length < len)
    (hlen : len < 2 ^ 31) : printFilename len text = some text := by
  have hn : text.length < 2 ^ 31 := Nat.lt_trans h hlen
  rw [printFilename, snprintf]
  simp only [if_pos hn]
  rw [if_pos (by omega), List.take_of_length_le (by omega)]

/-- A number has no `/` in it. -/
theorem slash_not_mem_printOffset (offset : Nat) : '/' ∉ printOffset offset := by
  have hdigits : ∀ n, '/' ∉ Nat.toDigits 10 n := by
    intro n hmem
    have hdigit := Nat.isDigit_of_mem_toDigits (by decide) (by decide) hmem
    exact absurd hdigit (by decide)
  rw [printOffset]
  split
  · exact hdigits _
  split
  · rw [List.mem_cons, not_or]
    exact ⟨by decide, hdigits _⟩
  · rw [List.mem_cons, not_or]
    exact ⟨by decide, hdigits _⟩

theorem slash_not_mem_dataFilename (offset : Nat) : '/' ∉ dataFilename offset := by
  rw [dataFilename, List.mem_append, not_or]
  exact ⟨slash_not_mem_printOffset offset, by decide⟩

/-- A file is listed under its name. -/
theorem entryName_joined (dir : DirPath) {name : List Char} (hname : '/' ∉ name) :
    entryName (joined dir name) = name := by
  -- in front of the name there is a `/`
  obtain ⟨front, hfront⟩ : ∃ front, joined dir name = front ++ '/' :: name := by
    rw [joined]
    split
    · rename_i hlast
      have hslash : dir.val.getLast dir.property = '/' := of_decide_eq_true hlast
      have hdir := List.dropLast_append_getLast dir.property
      rw [hslash] at hdir
      refine ⟨dir.val.dropLast, ?_⟩
      rw [List.append_nil, ← List.singleton_append, ← List.append_assoc, hdir]
    · refine ⟨dir.val, ?_⟩
      rw [List.append_assoc, List.singleton_append]
  have hall : ∀ c ∈ name.reverse, decide (c ≠ '/') = true := by
    intro c hc
    rw [List.mem_reverse] at hc
    exact decide_eq_true fun heq => hname (heq ▸ hc)
  rw [entryName, hfront, List.reverse_append, List.reverse_cons, List.append_assoc,
    List.takeWhile_append_of_pos hall]
  simp

/-! ## Paths -/

/-- `append_file_to_dir` cuts off what does not fit in front of the `NUL`, and finds fault with it
    from one character later on. -/
theorem appendFileToDir_eq {len : Nat} (dir : DirPath) (file : List Char) (hlen : len < 2 ^ 31) :
    appendFileToDir len dir file =
      if (joined dir file).length ≤ len then some ((joined dir file).take (len - 1)) else none := by
  have htext : (if dir.endsInSlash then snprintf len (dir.val ++ file)
      else snprintf len (dir.val ++ '/' :: file)) = snprintf len (joined dir file) := by
    rw [joined]
    split
    · rw [List.append_nil]
    · rw [List.append_assoc, List.singleton_append]
  rw [appendFileToDir, htext, snprintf]
  simp only []
  by_cases hfits : (joined dir file).length ≤ len
  · rw [if_pos (show (joined dir file).length < 2 ^ 31 by omega), if_neg (by omega),
      if_pos (by omega), if_pos hfits]
  · rw [if_neg hfits]
    split
    · rw [if_neg (by omega), if_neg (by omega)]
    · rw [if_pos rfl]

/-- The path that is opened, for a name that fits. -/
theorem openPath_eq (dir : DirPath) {filename : List Char} (hname : filename.length ≤ 24)
    (ensureDirectory : Bool) : openPath ensureDirectory dir filename =
      if ensureDirectory = false then .error ELFLEOP
      else if (joined dir filename).length ≤ 256 then .ok ((joined dir filename).take 255)
      else .error ELSOFLW := by
  rw [openPath, printFilename_fits (by omega) (by decide)]
  dsimp only
  split
  · rfl
  · rw [appendFileToDir_eq dir filename (by decide)]
    split
    · rename_i hnone
      split at hnone
      · cases hnone
      · rename_i hbig
        rw [if_neg hbig]
    · rename_i hsome
      split at hsome
      · rename_i hfits
        cases hsome
        rw [if_pos hfits]
      · cases hsome

/-- **A path is opened in full** exactly when its length is not that of the buffer. -/
theorem openPath_full_iff (dir : DirPath) {filename : List Char} (hname : filename.length ≤ 24) :
    (∀ ensureDirectory path, openPath ensureDirectory dir filename = .ok path →
      path = joined dir filename) ↔ (joined dir filename).length ≠ 256 := by
  constructor
  · intro hfull heq
    have hopen := openPath_eq dir hname true
    rw [if_neg (by decide), if_pos (by omega)] at hopen
    have hcut := congrArg List.length (hfull true _ hopen)
    rw [List.length_take, heq] at hcut
    exact absurd hcut (by decide)
  · intro hne ensureDirectory path hopen
    rw [openPath_eq dir hname] at hopen
    split at hopen
    · cases hopen
    · split at hopen
      · cases hopen
        exact List.take_of_length_le (by omega)
      · cases hopen

theorem length_joined_congr {dir : DirPath} {name name' : List Char}
    (h : name'.length = name.length) : (joined dir name').length = (joined dir name).length := by
  simp only [joined, List.length_append, h]

/-- **File names round-trip** exactly when the path does not have 256 characters. -/
theorem path_round_trip_iff {dir : DirPath} {offset : Nat} (hoffset : offset < 2 ^ 64) :
    PathRoundTrips dir offset ↔ (joined dir (dataFilename offset)).length ≠ 256 := by
  have hdata := length_dataFilename hoffset
  have hindex := length_indexFilename offset
  have hpaths := openPath_full_iff dir hdata
  have hpaths' := openPath_full_iff dir (Nat.le_trans (Nat.le_of_eq hindex) hdata)
  rw [length_joined_congr hindex] at hpaths'
  constructor
  · rintro ⟨h, -⟩
    exact hpaths.mp fun ensureDirectory path hopen => (h ensureDirectory path hopen).1
  · intro hne
    refine ⟨fun ensureDirectory path hopen => ?_, hpaths'.mpr hne⟩
    have hfull := hpaths.mpr hne ensureDirectory path hopen
    have hentry := entryName_joined dir (slash_not_mem_dataFilename offset)
    rw [hfull, hentry]
    exact ⟨rfl, isLog_dataFilename offset, strtoll_dataFilename hoffset⟩

/-- The largest base offset, which is printed as `-1`. -/
theorem path_round_trip_iff_of_largest :
    PathRoundTrips ⟨['d', '/'], by decide⟩ (2 ^ 64 - 1) :=
  (path_round_trip_iff (by decide)).mpr (by decide +kernel)

/-- A directory of 250 characters. -/
def longDir : DirPath := ⟨List.replicate 250 'd', by decide⟩

/-- In this directory the data file of the segment at 5 is opened under a name that ends in
    `.lo`. -/
theorem path_cut_off :
    openDataPath true longDir 5 = .ok (longDir.val ++ ['/', '5', '.', 'l', 'o']) ∧
      openIndexPath true longDir 5 = .ok (longDir.val ++ ['/', '5', '.', 'i', 'd']) ∧
      isLog (entryName (longDir.val ++ ['/', '5', '.', 'l', 'o'])) = false ∧
      ¬ PathRoundTrips longDir 5 := by
  have hopen : openDataPath true longDir 5 = .ok (longDir.val ++ ['/', '5', '.', 'l', 'o']) := by
    decide +kernel
  have hlog : isLog (entryName (longDir.val ++ ['/', '5', '.', 'l', 'o'])) = false := by
    decide +kernel
  refine ⟨hopen, by decide +kernel, hlog, ?_⟩
  rintro ⟨hdata, -⟩
  have hlisted := (hdata true _ hopen).2.1
  rw [hlog] at hlisted
  nomatch hlisted

end Mqlog
