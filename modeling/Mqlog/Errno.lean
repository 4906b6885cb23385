/-
  The error codes of `mqlogerrno.h` that the modelled functions return, and the C notions the
  modelled code shares: an `assert`, and the conversion of an unsigned word to a signed one.

  A C function that may abort (a failed `assert`), dereference a pointer that is not allocated or
  index past an array is modelled by an `Option`-valued function: `none` is that fault, and `some`
  carries what the function returns.  The error codes are ordinary results, never faults.

  The codes are negative, and so are lengths that were converted to a signed word of too few bits: a
  `size_t` from `2 ^ 31` on that is returned as an `int` looks like an error to the caller
  (`toInt_neg`).
-/
import Mathlib.Algebra.Ring.Int.Defs
import Mathlib.Algebra.Ring.Nat
import Mathlib.Data.Option.Basic

namespace Mqlog

/-- Allocation error. -/
def ELALLC : Int := -1
/-- Size is not a multiple of page size. -/
def ELNOPGM : Int := -2
/-- String overflow. -/
def ELSOFLW : Int := -3
/-- File operation error. -/
def ELFLEOP : Int := -5
/-- Mmap error. -/
def ELMMAP : Int := -9
/-- Madvice error. -/
def ELMADV : Int := -10
/-- No write capacity error. -/
def ELNOWCP : Int := -11
/-- Nothing to read. -/
def ELNORD : Int := -12
/-- Invalid frame error. -/
def ELINVHD : Int := -13
/-- Log directory error. -/
def ELLGDIR : Int := -14
/-- Closing log error. -/
def ELLGCLS : Int := -15
/-- Segment sync error. -/
def ELDTSYN : Int := -18
/-- End of segment. -/
def ELEOS : Int := -20
/-- Lock held. -/
def ELLOCK : Int := -21
/-- Failed to create index. -/
def ELIDXCR : Int := -23
/-- Index operation failed. -/
def ELIDXOP : Int := -24
/-- Failed to find write offset. -/
def ELWOFFS : Int := -25
/-- Failed to load segments. -/
def ELLDSGM : Int := -26
/-- Failed on lock operation. -/
def ELLCKOP : Int := -28
/-- Index operation panic. -/
def ELIDXPC : Int := -29
/-- Index is locked. -/
def ELIDXLK : Int := -30
/-- Key inserted violates monotonicity. -/
def ELIDXNM : Int := -31

/-- `assert(p)`: the program aborts when `p` is false. -/
def assert (p : Prop) [Decidable p] : Option Unit := if p then some () else none

@[simp] theorem assert_pos {p : Prop} [Decidable p] (h : p) : assert p = some () := if_pos h

/-- A 64-bit word read as `ssize_t`. -/
def toSsize (n : Nat) : Int := if n < 2 ^ 63 then n else (n : Int) - 2 ^ 64

/-- A `size_t` returned from a function of type `int`: the low 32 bits, read as signed. -/
def toInt (n : Nat) : Int :=
  if n % 2 ^ 32 < 2 ^ 31 then (n % 2 ^ 32 : Nat) else (n % 2 ^ 32 : Nat) - 2 ^ 32

theorem toSsize_of_lt {n : Nat} (h : n < 2 ^ 63) : toSsize n = n := if_pos h

theorem toInt_of_lt {n : Nat} (h : n < 2 ^ 31) : toInt n = n := by
  have hmod : n % 2 ^ 32 = n := Nat.mod_eq_of_lt (by omega)
  rw [toInt, hmod, if_pos h]

theorem toInt_neg {n : Nat} (h : 2 ^ 31 ≤ n) (h' : n < 2 ^ 32) : toInt n < 0 := by
  rw [toInt, Nat.mod_eq_of_lt h', if_neg (Nat.not_lt_of_le h)]
  omega

end Mqlog
