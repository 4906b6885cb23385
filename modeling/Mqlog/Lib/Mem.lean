/-
  Total memories and the values stored in them, over an arbitrary cell type; and little-endian
  fields of byte memories.

  A mapped file is a function from positions to cells.  `store m a l` writes the list `l` from `a`
  on, `load m a n` reads `n` cells, and `padded z l` is the memory that holds `l` from `0` on and
  `z` everywhere else, which is what an append-only file looks like: appending to it is
  `store_padded`.

  The rules for stores in sequence turn any order in which the parts of a record are written into
  the one store of the whole record:

  * `store_comm`  — stores to different places can be made in either order;
  * `store_append`  — two adjacent stores are one;
  * `store_prefix`  — a store over the first part of an earlier one;
  * `store_covered` — a store over all of an earlier one.

  `copy` takes a range over from another memory, which is what writing a part of a mapping to disk
  does.  A field of 16 or 32 bits is read as the number of its bytes; a field of which some bytes
  are lost, that is zero, is not larger than it was (`get32_le`).
-/
import Mathlib.Algebra.Ring.Nat
import Mathlib.Data.List.Basic

namespace Mqlog.Lib.Mem

variable {α : Type}

/-- The memory with the list `l` written from `a` on. -/
def store (m : Nat → α) (a : Nat) (l : List α) : Nat → α :=
  fun p => if a ≤ p then (l[p - a]?).getD (m p) else m p

/-- The `n` cells from `a` on. -/
def load (m : Nat → α) (a n : Nat) : List α := (List.range n).map fun i => m (a + i)

/-- The list `l` from position `0` on, and `z` behind it. -/
def padded (z : α) (l : List α) : Nat → α := fun p => (l[p]?).getD z

/-- The memory `d` with `n` cells from `a` on taken over from `m`. -/
def copy (d m : Nat → α) (a n : Nat) : Nat → α := fun p => if a ≤ p ∧ p < a + n then m p else d p

/-! ## Single cells -/

/-- A cell in front of the stored ones. -/
theorem store_of_lt {m : Nat → α} {a p : Nat} {l : List α} (h : p < a) : store m a l p = m p :=
  if_neg (Nat.not_le_of_lt h)

/-- A cell behind the stored ones. -/
theorem store_of_ge {m : Nat → α} {a p : Nat} {l : List α} (h : a + l.length ≤ p) :
    store m a l p = m p := by
  rw [store, if_pos (by omega), List.getElem?_eq_none (by omega)]
  rfl

/-- A stored cell. -/
theorem store_of_mem {m : Nat → α} {a p : Nat} {l : List α} (ha : a ≤ p) (h : p - a < l.length) :
    store m a l p = l[p - a] := by
  rw [store, if_pos ha, List.getElem?_eq_getElem h]
  rfl

@[simp] theorem store_nil (m : Nat → α) (a : Nat) : store m a [] = m := by
  funext p
  rw [store]
  split <;> rfl

/-- A cell of the list. -/
theorem padded_of_lt {z : α} {l : List α} {p : Nat} (h : p < l.length) : padded z l p = l[p] := by
  rw [padded, List.getElem?_eq_getElem h]
  rfl

/-- A cell behind the list. -/
theorem padded_of_ge {z : α} {l : List α} {p : Nat} (h : l.length ≤ p) : padded z l p = z := by
  rw [padded, List.getElem?_eq_none h]
  rfl

/-- A cell of the first of two lists. -/
theorem padded_append_of_lt {z : α} {l l' : List α} {p : Nat} (h : p < l.length) :
    padded z (l ++ l') p = padded z l p := by
  rw [padded, padded, List.getElem?_append_left h]

/-- The part of a padded list behind its first piece. -/
theorem padded_append_add {z : α} {l l' : List α} (i : Nat) :
    padded z (l ++ l') (l.length + i) = padded z l' i := by
  rw [padded, padded, List.getElem?_append_right (Nat.le_add_right ..), Nat.add_sub_cancel_left]

/-- Padding that is written out is padding. -/
theorem padded_append_replicate {z : α} {l : List α} (n : Nat) :
    padded z (l ++ List.replicate n z) = padded z l := by
  funext p
  rcases Nat.lt_or_ge p l.length with hlt | hge
  · rw [padded, padded, List.getElem?_append_left hlt]
  · rw [padded, padded, List.getElem?_append_right hge, List.getElem?_replicate,
      List.getElem?_eq_none hge]
    split <;> rfl

@[simp] theorem padded_nil (z : α) : padded z ([] : List α) = fun _ => z := rfl

/-! ## Copies -/

/-- Nothing is copied. -/
theorem copy_zero (d m : Nat → α) (a : Nat) : copy d m a 0 = d := by
  funext p
  rw [copy, if_neg (by omega)]

/-- One cell is copied. -/
theorem copy_one (d m : Nat → α) (a p : Nat) : copy d m a 1 p = if p = a then m p else d p := by
  rw [copy]
  exact if_congr ⟨fun h => by omega, fun h => by omega⟩ rfl rfl

/-- A copy cell by cell. -/
theorem copy_succ (d m : Nat → α) (a n : Nat) :
    copy (copy d m a 1) m (a + 1) n = copy d m a (n + 1) := by
  funext p
  simp only [copy]
  by_cases hp : p = a
  · rw [if_neg (by omega), if_pos (by omega), if_pos (by omega)]
  · by_cases hin : a + 1 ≤ p ∧ p < a + 1 + n
    · rw [if_pos hin, if_pos (by omega)]
    · rw [if_neg hin, if_neg (by omega), if_neg (by omega)]

/-! ## Stores in sequence -/

/-- Stores to different places can be made in either order. -/
theorem store_comm {m : Nat → α} {a b : Nat} {l l' : List α}
    (h : a + l.length ≤ b ∨ b + l'.length ≤ a) :
    store (store m a l) b l' = store (store m b l') a l := by
  funext p
  by_cases hb : b ≤ p ∧ p - b < l'.length
  · have ha : store (store m b l') a l p = store m b l' p := by
      rcases h with h | h
      · exact store_of_ge (by omega)
      · exact store_of_lt (by omega)
    rw [ha, store_of_mem hb.1 hb.2, store_of_mem hb.1 hb.2]
  · have hout : ∀ m' : Nat → α, store m' b l' p = m' p := fun m' => by
      rcases Nat.lt_or_ge p b with hlt | hge
      · exact store_of_lt hlt
      · exact store_of_ge (by omega)
    rw [hout]
    by_cases ha : a ≤ p ∧ p - a < l.length
    · rw [store_of_mem ha.1 ha.2, store_of_mem ha.1 ha.2]
    · have hout' : ∀ m' : Nat → α, store m' a l p = m' p := fun m' => by
        rcases Nat.lt_or_ge p a with hlt | hge
        · exact store_of_lt hlt
        · exact store_of_ge (by omega)
      rw [hout', hout', hout]

/-- Two adjacent stores are one. -/
theorem store_append {m : Nat → α} {a b : Nat} {l l' : List α} (hb : b = a + l.length) :
    store (store m a l) b l' = store m a (l ++ l') := by
  subst hb
  funext p
  rcases Nat.lt_or_ge p a with hlt | hge
  · rw [store_of_lt (by omega), store_of_lt hlt, store_of_lt hlt]
  · rw [store, store, store, if_pos hge]
    by_cases hl : p - a < l.length
    · rw [if_neg (by omega), if_pos hge, List.getElem?_append_left hl, List.getElem?_eq_getElem hl,
        Option.getD_some]
    · rw [if_pos (by omega), if_pos hge, List.getElem?_append_right (by omega),
        show p - a - l.length = p - (a + l.length) by omega]
      rw [List.getElem?_eq_none (show l.length ≤ p - a by omega)]
      rfl

/-- A store over the first part of an earlier one. -/
theorem store_prefix {m : Nat → α} {a : Nat} {l l' r : List α} (h : l'.length = l.length) :
    store (store m a (l ++ r)) a l' = store m a (l' ++ r) := by
  funext p
  rcases Nat.lt_or_ge p a with hlt | hge
  · rw [store_of_lt hlt, store_of_lt hlt, store_of_lt hlt]
  · rw [store, store, store, if_pos hge, if_pos hge, if_pos hge]
    by_cases hl : p - a < l'.length
    · rw [List.getElem?_append_left hl, List.getElem?_eq_getElem hl]
      rfl
    · rw [List.getElem?_eq_none (by omega), List.getElem?_append_right (by omega),
        List.getElem?_append_right (by omega), h]
      rfl

/-- A store over all of an earlier one. -/
theorem store_covered {m : Nat → α} {a : Nat} {l l' : List α} (h : l.length ≤ l'.length) :
    store (store m a l) a l' = store m a l' := by
  funext p
  rcases Nat.lt_or_ge p a with hlt | hge
  · rw [store_of_lt hlt, store_of_lt hlt, store_of_lt hlt]
  · by_cases hl : p - a < l'.length
    · rw [store_of_mem hge hl, store_of_mem hge hl]
    · rw [store_of_ge (by omega), store_of_ge (by omega), store_of_ge (by omega)]

/-- **Appending** to a padded list. -/
theorem store_padded {z : α} {l l' : List α} {a : Nat} (ha : a = l.length) :
    store (padded z l) a l' = padded z (l ++ l') := by
  subst ha
  funext p
  rw [store, padded, padded]
  by_cases hl : l.length ≤ p
  · rw [if_pos hl, List.getElem?_append_right hl, List.getElem?_eq_none hl]
    rfl
  · rw [if_neg hl, List.getElem?_append_left (by omega)]

/-! ## Loads -/

@[simp] theorem length_load (m : Nat → α) (a n : Nat) : (load m a n).length = n := by
  rw [load, List.length_map, List.length_range]

/-- Memories that agree on a range give the same cells there. -/
theorem load_congr {m m' : Nat → α} {a n : Nat} (h : ∀ p, a ≤ p → p < a + n → m p = m' p) :
    load m a n = load m' a n := by
  refine List.map_congr_left fun i hi => ?_
  rw [List.mem_range] at hi
  exact h (a + i) (by omega) (by omega)

/-- Cells one behind the other. -/
theorem load_add (m : Nat → α) (a n n' : Nat) :
    load m a (n + n') = load m a n ++ load m (a + n) n' := by
  simp only [load, List.range_add, List.map_append, List.map_map, Function.comp_def, Nat.add_assoc]

/-- Reading a part of a padded list. -/
theorem load_padded {z : α} {l s r : List α} {a n : Nat} (ha : a = l.length) (hn : n = s.length) :
    load (padded z (l ++ s ++ r)) a n = s := by
  subst ha hn
  refine List.ext_getElem (length_load ..) fun i hi hi' => ?_
  rw [length_load] at hi
  simp only [load, List.getElem_map, List.getElem_range]
  rw [padded, List.getElem?_append_left (by rw [List.length_append]; omega),
    List.getElem?_append_right (by omega), Nat.add_sub_cancel_left, List.getElem?_eq_getElem hi]
  rfl

/-- Reading the first part of what was stored. -/
theorem load_store_init {m : Nat → α} {a n : Nat} {l r : List α} (hn : n = l.length) :
    load (store m a (l ++ r)) a n = l := by
  subst hn
  refine List.ext_getElem (length_load ..) fun i hi hi' => ?_
  simp only [load, List.getElem_map, List.getElem_range]
  rw [store_of_mem (Nat.le_add_right ..) (by rw [List.length_append]; omega)]
  simp only [Nat.add_sub_cancel_left]
  exact List.getElem_append_left hi'

/-- A memory with the list `l` from position `0` on and `z` behind it. -/
theorem eq_padded_of_load {m : Nat → α} {z : α} {l : List α} (hload : load m 0 l.length = l)
    (hz : ∀ p, l.length ≤ p → m p = z) : m = padded z l := by
  funext p
  rcases Nat.lt_or_ge p l.length with hlt | hge
  · have hlt' : p < (load m 0 l.length).length := by rwa [length_load]
    have hcell : (load m 0 l.length)[p] = l[p] := by simp only [hload]
    rw [padded_of_lt hlt, ← hcell]
    simp only [load, List.getElem_map, List.getElem_range, Nat.zero_add]
  · rw [padded_of_ge hge]
    exact hz p hge

/-! ## Little-endian fields -/

/-- The two bytes of a 16-bit field. -/
def le16 (n : Nat) : List UInt8 := [UInt8.ofNat n, UInt8.ofNat (n / 2 ^ 8)]

/-- The four bytes of a 32-bit field. -/
def le32 (n : Nat) : List UInt8 :=
  [UInt8.ofNat n, UInt8.ofNat (n / 2 ^ 8), UInt8.ofNat (n / 2 ^ 16), UInt8.ofNat (n / 2 ^ 24)]

/-- The 16-bit field at `p`. -/
def get16 (m : Nat → UInt8) (p : Nat) : Nat := (m p).toNat + 2 ^ 8 * (m (p + 1)).toNat

/-- The 32-bit field at `p`. -/
def get32 (m : Nat → UInt8) (p : Nat) : Nat :=
  (m p).toNat + 2 ^ 8 * (m (p + 1)).toNat + 2 ^ 16 * (m (p + 2)).toNat + 2 ^ 24 * (m (p + 3)).toNat

@[simp] theorem length_le16 (n : Nat) : (le16 n).length = 2 := rfl
@[simp] theorem length_le32 (n : Nat) : (le32 n).length = 4 := rfl

/-- Two bytes that agree make the same number. -/
theorem get16_congr {m m' : Nat → UInt8} {p : Nat} (h : ∀ i, i < 2 → m (p + i) = m' (p + i)) :
    get16 m p = get16 m' p := by
  have h0 := h 0 (by omega)
  rw [Nat.add_zero] at h0
  rw [get16, get16, h0, h 1 (by omega)]

/-- Four bytes make a number of 32 bits. -/
theorem get32_lt (m : Nat → UInt8) (p : Nat) : get32 m p < 2 ^ 32 := by
  have h0 := (m p).toNat_lt
  have h1 := (m (p + 1)).toNat_lt
  have h2 := (m (p + 2)).toNat_lt
  have h3 := (m (p + 3)).toNat_lt
  rw [get32]
  omega

/-- A field of which some bytes are lost is not larger. -/
theorem get32_le {m m' : Nat → UInt8} {p : Nat}
    (h : ∀ i, i < 4 → m' (p + i) = m (p + i) ∨ m' (p + i) = 0) : get32 m' p ≤ get32 m p := by
  have hle : ∀ i, i < 4 → (m' (p + i)).toNat ≤ (m (p + i)).toNat := by
    intro i hi
    rcases h i hi with heq | hzero
    · rw [heq]
    · rw [hzero]
      exact Nat.zero_le _
  have h0 := hle 0 (by omega)
  have h1 := hle 1 (by omega)
  have h2 := hle 2 (by omega)
  have h3 := hle 3 (by omega)
  rw [Nat.add_zero] at h0
  rw [get32, get32]
  omega

/-- A byte is a number modulo 256. -/
theorem toNat_ofNat (n : Nat) : (UInt8.ofNat n).toNat = n % 2 ^ 8 := UInt8.toNat_ofNat'

/-- The number whose bytes are stored, of 16 bits. -/
theorem get16_of_load {m : Nat → UInt8} {p n : Nat} (h : load m p 2 = le16 n) (hn : n < 2 ^ 16) :
    get16 m p = n := by
  obtain ⟨h0, h1⟩ : m (p + 0) = UInt8.ofNat n ∧ m (p + 1) = UInt8.ofNat (n / 2 ^ 8) := by
    simpa [load, le16, List.range_succ] using h
  rw [Nat.add_zero] at h0
  rw [get16, h0, h1, toNat_ofNat, toNat_ofNat]
  omega

/-- The number whose bytes are stored, of 32 bits. -/
theorem get32_of_load {m : Nat → UInt8} {p n : Nat} (h : load m p 4 = le32 n) (hn : n < 2 ^ 32) :
    get32 m p = n := by
  obtain ⟨h0, h1, h2, h3⟩ : m (p + 0) = UInt8.ofNat n ∧ m (p + 1) = UInt8.ofNat (n / 2 ^ 8) ∧
      m (p + 2) = UInt8.ofNat (n / 2 ^ 16) ∧ m (p + 3) = UInt8.ofNat (n / 2 ^ 24) := by
    simpa [load, le32, List.range_succ] using h
  rw [Nat.add_zero] at h0
  rw [get32, h0, h1, h2, h3, toNat_ofNat, toNat_ofNat, toNat_ofNat, toNat_ofNat]
  omega

end Mqlog.Lib.Mem
