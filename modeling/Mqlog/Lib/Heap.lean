/-
  A heap of pointer-linked records, over an arbitrary record type.

  C code that links `calloc`ed records through raw pointers is modelled by a partial map from
  addresses to records.  Address `0` is `NULL`.  Two facts hold of every heap the C library can hand
  out, and both are fields of `Heap`, so that no proof re-establishes them:

  * `null`  — nothing is ever stored at `NULL` (so a read through `NULL` is a read of `none`);
  * `fresh` — nothing is stored at or above the next address to be handed out, so a newly allocated
    record never overlaps a live one.

  `alloc` hands out a fresh address, `set` overwrites a live record, `free` drops one.  Each has one
  lookup lemma (`get_alloc`, `get_set`, `get_free`), and these are all that a client uses.

  Addresses are not handed out again, also not those of records that were freed.  So a use after a
  `free` is a read of `none`, and never one of another record.
-/
import Mathlib.Logic.Function.Basic
import Mathlib.Data.Option.Basic

namespace Mqlog.Lib

/-- A heap of records of type `α`: which record lives where, and the next address to hand out. -/
structure Heap (α : Type) where
  /-- The record at an address, `none` when nothing is allocated there. -/
  cell : Nat → Option α
  /-- The address of the next record to be allocated. -/
  next : Nat
  pos : 0 < next
  null : cell 0 = none
  fresh : ∀ p, next ≤ p → cell p = none

namespace Heap

variable {α : Type}

/-- The heap in which nothing is allocated. -/
def empty : Heap α where
  cell := fun _ => none
  next := 1
  pos := Nat.one_pos
  null := rfl
  fresh := fun _ _ => rfl

/-- Dereference. -/
def get (h : Heap α) (p : Nat) : Option α := h.cell p

/-- Allocate a record holding `v` at the address `h.next`. -/
def alloc (h : Heap α) (v : α) : Heap α where
  cell := fun q => if q = h.next then some v else h.cell q
  next := h.next + 1
  pos := Nat.succ_pos _
  null := by rw [if_neg (Nat.ne_of_lt h.pos)]; exact h.null
  fresh := fun p hp => by rw [if_neg (by omega)]; exact h.fresh p (by omega)

/-- Overwrite the record at `p`; nothing happens when `p` is not allocated. -/
def set (h : Heap α) (p : Nat) (v : α) : Heap α where
  cell := fun q => if q = p then (h.cell p).map (fun _ => v) else h.cell q
  next := h.next
  pos := h.pos
  null := by
    split
    · rename_i h0; rw [← h0, h.null]; rfl
    · exact h.null
  fresh := fun q hq => by
    split
    · rename_i h0; rw [← h0, h.fresh q hq]; rfl
    · exact h.fresh q hq

/-- Release the record at `p`. -/
def free (h : Heap α) (p : Nat) : Heap α where
  cell := fun q => if q = p then none else h.cell q
  next := h.next
  pos := h.pos
  null := by split <;> first | rfl | exact h.null
  fresh := fun q hq => by split <;> first | rfl | exact h.fresh q hq

/-- Reading behind an allocation. -/
theorem get_alloc (h : Heap α) (v : α) (q : Nat) :
    (h.alloc v).get q = if q = h.next then some v else h.get q := rfl

/-- Reading behind a store. -/
theorem get_set (h : Heap α) (p : Nat) (v : α) (q : Nat) :
    (h.set p v).get q = if q = p then (h.get p).map (fun _ => v) else h.get q := rfl

/-- Reading behind a `free`. -/
theorem get_free (h : Heap α) (p q : Nat) : (h.free p).get q = if q = p then none else h.get q :=
  rfl

@[simp] theorem next_alloc (h : Heap α) (v : α) : (h.alloc v).next = h.next + 1 := rfl
@[simp] theorem next_set (h : Heap α) (p : Nat) (v : α) : (h.set p v).next = h.next := rfl
@[simp] theorem next_free (h : Heap α) (p : Nat) : (h.free p).next = h.next := rfl
@[simp] theorem next_empty : (empty : Heap α).next = 1 := rfl
@[simp] theorem get_empty (p : Nat) : (empty : Heap α).get p = none := rfl
@[simp] theorem get_null (h : Heap α) : h.get 0 = none := h.null

@[simp] theorem get_alloc_self (h : Heap α) (v : α) : (h.alloc v).get h.next = some v := by
  rw [get_alloc, if_pos rfl]

/-- A live record is never at `NULL`. -/
theorem ne_null {h : Heap α} {p : Nat} {v : α} (hp : h.get p = some v) : p ≠ 0 := by
  rintro rfl
  rw [get_null] at hp
  nomatch hp

/-- A live record lies below the next address. -/
theorem lt_next {h : Heap α} {p : Nat} {v : α} (hp : h.get p = some v) : p < h.next := by
  rcases Nat.lt_or_ge p h.next with hlt | hge
  · exact hlt
  · have hnone : h.get p = none := h.fresh p hge
    rw [hp] at hnone
    nomatch hnone

/-- Allocation leaves every live record as it is. -/
theorem get_alloc_of_get {h : Heap α} {p : Nat} {v w : α} (hp : h.get p = some v) :
    (h.alloc w).get p = some v := by
  rw [get_alloc, if_neg (Nat.ne_of_lt (lt_next hp))]
  exact hp

/-- What is stored at an allocated address is read there. -/
theorem get_set_self {h : Heap α} {p : Nat} {v w : α} (hp : h.get p = some v) :
    (h.set p w).get p = some w := by
  rw [get_set, if_pos rfl, hp]
  rfl

/-- A store leaves the other addresses alone. -/
theorem get_set_of_ne {h : Heap α} {p q : Nat} {w : α} (hq : q ≠ p) :
    (h.set p w).get q = h.get q := by
  rw [get_set, if_neg hq]

end Heap
end Mqlog.Lib
