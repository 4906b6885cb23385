/-
  Records laid one after another, with a table of where each of them starts.

  `f` turns a value into the cells of its record.  `image l` is what a file holds to which the
  values of `l` have been appended, `start l k` the position of the `k`-th record, and `starts l`
  the whole table.  `Stored m t l` says of two memories that they begin with the records of `l` and
  with their table; behind that the memories are arbitrary, so it is what survives when something is
  appended, or when an append is interrupted.

  * The image: it is additive in the list (`image_append`), and can be cut around each of its
    records (`image_split`).
  * Positions: each record starts where the one in front of it ends (`start_succ`), and what is in
    front decides where it starts (`start_append`, `start_set`).
  * The table: positions increase, when at most the last record is empty (`starts_increasing`).
  * Memories: `Stored.snoc` appends a record, over whatever was behind the others, and
    `Stored.load_record` reads one.

  Nothing is said about how long a record is, or how its end is found: a reader that has the table
  needs no more.
-/
import Mqlog.Lib.Mem
import Mathlib.Data.List.Induction
import Mathlib.Data.List.TakeDrop

namespace Mqlog.Lib.Records

open Mem

variable {α β : Type} (f : α → List β)

/-- The records of `l`, one after another. -/
def image (l : List α) : List β := l.flatMap f

/-- The position of the `k`-th record. -/
def start (l : List α) (k : Nat) : Nat := (image f (l.take k)).length

/-- The positions of all records. -/
def starts (l : List α) : List Nat := (List.range l.length).map (start f l)

variable {f}

/-! ## The image -/

@[simp] theorem image_nil : image f [] = [] := rfl

/-- The image of two lists of records. -/
theorem image_append (l l' : List α) : image f (l ++ l') = image f l ++ image f l' :=
  List.flatMap_append ..

@[simp] theorem image_singleton (a : α) : image f [a] = f a := List.flatMap_singleton ..

/-- The image with one record more. -/
theorem image_snoc (l : List α) (a : α) :
    image f (l ++ [a]) = image f l ++ f a := by
  rw [image_append, image_singleton]

/-- The image depends on the records alone. -/
theorem image_congr {l l' : List α} (h : l'.map f = l.map f) : image f l' = image f l := by
  rw [image, image, List.flatMap_def, List.flatMap_def, h]

/-- The image around its `k`-th record. -/
theorem image_split {l : List α} {k : Nat} (hk : k < l.length) :
    image f l =
      image f (l.take k) ++ f l[k] ++ image f (l.drop (k + 1)) := by
  calc image f l
      = image f (l.take k ++ l[k] :: l.drop (k + 1)) := by
        rw [← List.drop_eq_getElem_cons hk, List.take_append_drop]
    _ = image f (l.take k) ++ f l[k] ++ image f (l.drop (k + 1)) := by
        rw [image_append, List.append_assoc]
        rfl

/-- Records of at least `m` cells each. -/
theorem mul_length_le_image {m : Nat} (hm : ∀ a, m ≤ (f a).length) :
    ∀ l : List α, m * l.length ≤ (image f l).length
  | [] => Nat.le_refl _
  | a :: l => by
    have ih := mul_length_le_image hm l
    have ha := hm a
    rw [image, List.flatMap_cons, List.length_append, List.length_cons, Nat.mul_succ]
    rw [image] at ih
    omega

/-! ## Positions -/

@[simp] theorem start_zero (l : List α) : start f l 0 = 0 := by rw [start, List.take_zero]; rfl

/-- A record more would start at the end of the image. -/
theorem start_length (l : List α) : start f l l.length = (image f l).length := by
  rw [start, List.take_length]

/-- A record starts where it started before something was appended. -/
theorem start_append {l l' : List α} {k : Nat} (hk : k ≤ l.length) :
    start f (l ++ l') k = start f l k := by
  rw [start, start, List.take_append_of_le_length hk]

/-- Positions depend on the records alone. -/
theorem start_congr {l l' : List α} (h : l'.map f = l.map f) (k : Nat) :
    start f l' k = start f l k := by
  rw [start, start, image, image, List.flatMap_def, List.flatMap_def, List.map_take,
    List.map_take, h]

/-- A record starts where it started before one behind it was replaced. -/
theorem start_set {l : List α} {j k : Nat} (a : α) (hjk : k ≤ j) :
    start f (l.set j a) k = start f l k := by
  rw [start, start, List.take_set_of_le hjk]

/-- The image with its last record replaced. -/
theorem image_set_last {l : List α} {j : Nat} (a : α) (hj : j + 1 = l.length) :
    image f (l.set j a) = image f (l.take j) ++ f a := by
  rw [List.set_eq_take_append_cons_drop, if_pos (by omega), List.drop_of_length_le (by omega),
    image_snoc]

/-- Each record starts where the one in front of it ends. -/
theorem start_succ {l : List α} {k : Nat} (hk : k < l.length) :
    start f l (k + 1) = start f l k + (f l[k]).length := by
  rw [start, start, ← List.take_concat_get' l k hk, image_snoc, List.length_append]

/-- Later records start later. -/
theorem start_mono {l : List α} {j k : Nat} (hjk : j ≤ k) : start f l j ≤ start f l k := by
  obtain ⟨r, hr⟩ : l.take j <+: l.take k := List.take_prefix_take_left hjk
  rw [start, start, ← hr, image_append, List.length_append]
  exact Nat.le_add_right ..

/-- A record ends before the ones behind it start. -/
theorem start_add_le {l : List α} {j k : Nat} (hj : j < l.length) (hjk : j < k) :
    start f l j + (f l[j]).length ≤ start f l k := by
  rw [← start_succ hj]
  exact start_mono hjk

/-- A record ends inside the image. -/
theorem start_add_le_image {l : List α} {k : Nat} (hk : k < l.length) :
    start f l k + (f l[k]).length ≤ (image f l).length := by
  rw [← start_length]
  exact start_add_le hk hk

/-- Every cell of the image belongs to a record. -/
theorem exists_start {l : List α} {p : Nat} (hp : p < (image f l).length) :
    ∃ (k : Nat) (hk : k < l.length), start f l k ≤ p ∧ p < start f l k + (f l[k]).length := by
  induction l using List.reverseRecOn with
  | nil => exact absurd hp (Nat.not_lt_zero p)
  | append_singleton l a ih =>
    rcases Nat.lt_or_ge p (image f l).length with hlt | hge
    · obtain ⟨k, hk, hlo, hhi⟩ := ih hlt
      refine ⟨k, by rw [List.length_append]; omega, ?_⟩
      rw [start_append (Nat.le_of_lt hk), List.getElem_append_left hk]
      exact ⟨hlo, hhi⟩
    · refine ⟨l.length, by rw [List.length_append, List.length_singleton]; omega, ?_⟩
      rw [image_snoc, List.length_append] at hp
      rw [start_append (Nat.le_refl _), start_length]
      simp only [List.getElem_append_right (Nat.le_refl _), Nat.sub_self, List.getElem_singleton]
      exact ⟨hge, hp⟩

/-- Records of at least `m` cells. -/
theorem mul_le_start {m : Nat} (hm : ∀ a, m ≤ (f a).length) {l : List α} {k : Nat}
    (hk : k ≤ l.length) : m * k ≤ start f l k := by
  have hlen := mul_length_le_image hm (l.take k)
  rwa [List.length_take, Nat.min_eq_left hk] at hlen

/-- The cells of the image are those of its records. -/
theorem getElem?_image {l : List α} {k i : Nat} (hk : k < l.length) (hi : i < (f l[k]).length) :
    (image f l)[start f l k + i]? = some ((f l[k])[i]) := by
  rw [image_split hk, List.append_assoc, start, List.getElem?_append_right (Nat.le_add_right ..),
    Nat.add_sub_cancel_left, List.getElem?_append_left hi, List.getElem?_eq_getElem hi]

/-! ## The table -/

@[simp] theorem length_starts (l : List α) : (starts f l).length = l.length := by
  rw [starts, List.length_map, List.length_range]

/-- The `k`-th position of the table. -/
theorem getElem_starts {l : List α} {k : Nat} (hk : k < (starts f l).length) :
    (starts f l)[k] = start f l k := by
  simp only [starts, List.getElem_map, List.getElem_range]

/-- The first record starts at 0. -/
theorem zero_mem_starts {l : List α} (h : starts f l ≠ []) : 0 ∈ starts f l := by
  have hpos := List.length_pos_iff.mpr h
  have hfirst := getElem_starts hpos
  rw [start_zero] at hfirst
  exact hfirst ▸ List.getElem_mem hpos

/-- No record starts behind the image. -/
theorem le_length_image {l : List α} {b : Nat} (h : b ∈ starts f l) : b ≤ (image f l).length := by
  obtain ⟨k, hk, rfl⟩ := List.getElem_of_mem h
  rw [getElem_starts hk, ← start_length]
  rw [length_starts] at hk
  exact start_mono (Nat.le_of_lt hk)

/-- The table with one record more. -/
theorem starts_snoc (l : List α) (a : α) :
    starts f (l ++ [a]) = starts f l ++ [(image f l).length] := by
  rw [starts, List.length_append, List.length_singleton, List.range_succ, List.map_append,
    List.map_singleton, start_append (Nat.le_refl _), start_length]
  congr 1
  refine List.map_congr_left fun k hk => ?_
  rw [List.mem_range] at hk
  exact start_append (by omega)

/-- Records with the same images start at the same positions. -/
theorem starts_congr {l l' : List α} (h : l'.map f = l.map f) : starts f l' = starts f l := by
  have hlen : l'.length = l.length := by rw [← List.length_map (f := f), h, List.length_map]
  rw [starts, starts, hlen]
  exact List.map_congr_left fun k _ => start_congr h k

/-- The table says nothing about the last record. -/
theorem starts_set_last {l : List α} {j : Nat} (a : α) (hj : j + 1 = l.length) :
    starts f (l.set j a) = starts f l := by
  rw [starts, starts, List.length_set]
  refine List.map_congr_left fun k hk => start_set a ?_
  rw [List.mem_range] at hk
  omega

/-- The positions increase when only the last record may be empty. -/
theorem starts_increasing {l : List α} (h : ∀ (k : Nat) (hk : k + 1 < l.length), f l[k] ≠ []) :
    (starts f l).Pairwise (· < ·) := by
  refine List.pairwise_iff_getElem.mpr fun j k hj hk hjk => ?_
  rw [getElem_starts, getElem_starts]
  rw [length_starts] at hj hk
  have hle := start_add_le (f := f) hj hjk
  have hpos := List.length_pos_iff.mpr (h j (by omega))
  omega

/-- No record starts where the image ends, when the last one is not empty. -/
theorem starts_lt {l : List α} (h : (starts f l).Pairwise (· < ·))
    (hlast : ∀ a ∈ l.getLast?, f a ≠ []) :
    ∀ b ∈ starts f l, b < (image f l).length := by
  rcases List.eq_nil_or_concat l with rfl | ⟨l, a, rfl⟩
  · exact fun b hb => absurd hb List.not_mem_nil
  · rw [List.concat_eq_append] at *
    rw [starts_snoc] at h ⊢
    have hpos := List.length_pos_iff.mpr (hlast a (by rw [List.getLast?_concat]; rfl))
    intro b hb
    rw [image_snoc, List.length_append]
    rcases List.mem_append.mp hb with hb | hb
    · have hlt := (List.pairwise_append.mp h).2.2 b hb _ (List.mem_singleton_self _)
      omega
    · rw [List.mem_singleton.mp hb]
      omega

/-! ## Memories that begin with the records -/

/-- The memory `m` begins with the records of `l`, and `t` with the table of them. -/
structure Stored (f : α → List β) (m : Nat → β) (t : Nat → Nat) (l : List α) : Prop where
  cells : ∀ p (h : p < (image f l).length), m p = (image f l)[p]
  table : ∀ k, k < l.length → t k = start f l k

/-- Without records there is nothing to store. -/
theorem Stored.nil (m : Nat → β) (t : Nat → Nat) : Stored f m t [] :=
  ⟨fun _ h => absurd h (Nat.not_lt_zero _), fun _ h => absurd h (Nat.not_lt_zero _)⟩

/-- A memory that starts with the records, and a table that starts with their positions. -/
theorem stored_padded (z : β) (z' : Nat) (l : List α) (r : List β) (r' : List Nat) :
    Stored f (padded z (image f l ++ r)) (padded z' (starts f l ++ r')) l := by
  constructor
  · intro p hp
    rw [padded_of_lt (by rw [List.length_append]; omega), List.getElem_append_left hp]
  · intro k hk
    have hk' : k < (starts f l).length := by rwa [length_starts]
    rw [padded_of_lt (by rw [List.length_append]; omega), List.getElem_append_left hk',
      getElem_starts]

/-- What happens behind the records and their table does not matter. -/
theorem Stored.congr {m m' : Nat → β} {t t' : Nat → Nat} {l : List α} (h : Stored f m t l)
    (hm : ∀ p, p < (image f l).length → m' p = m p) (ht : ∀ k, k < l.length → t' k = t k) :
    Stored f m' t' l :=
  ⟨fun p hp => (hm p hp).trans (h.cells p hp), fun k hk => (ht k hk).trans (h.table k hk)⟩

/-- **Another record** behind the others, whatever was there. -/
theorem Stored.snoc {m : Nat → β} {t : Nat → Nat} {l : List α} (h : Stored f m t l) (a : α) :
    Stored f (store m (image f l).length (f a)) (store t l.length [(image f l).length])
      (l ++ [a]) := by
  constructor
  · intro p hp
    have hp' : p < (image f l).length + (f a).length := by
      rwa [image_snoc, List.length_append] at hp
    simp only [image_snoc]
    rcases Nat.lt_or_ge p (image f l).length with hlt | hge
    · rw [store_of_lt hlt, List.getElem_append_left hlt]
      exact h.cells p hlt
    · rw [store_of_mem hge (by omega), List.getElem_append_right hge]
  · intro k hk
    rw [List.length_append, List.length_singleton] at hk
    rcases Nat.lt_or_ge k l.length with hlt | hge
    · rw [store_of_lt hlt, start_append (Nat.le_of_lt hlt)]
      exact h.table k hlt
    · obtain rfl : k = l.length := by omega
      rw [store_of_mem (Nat.le_refl _) (by rw [Nat.sub_self]; exact Nat.one_pos),
        start_append (Nat.le_refl _), start_length]
      simp only [Nat.sub_self, List.getElem_singleton]

/-- The first records of a longer list are stored too. -/
theorem Stored.of_append {m : Nat → β} {t : Nat → Nat} {l l' : List α}
    (h : Stored f m t (l ++ l')) : Stored f m t l := by
  constructor
  · intro p hp
    have hp' : p < (image f (l ++ l')).length := by rw [image_append, List.length_append]; omega
    rw [h.cells p hp']
    simp only [image_append]
    exact List.getElem_append_left hp
  · intro k hk
    rw [h.table k (by rw [List.length_append]; omega), start_append (Nat.le_of_lt hk)]

/-- **Reading a record** where the table says it starts. -/
theorem Stored.load_record {m : Nat → β} {t : Nat → Nat} {l : List α} (h : Stored f m t l)
    {k : Nat} (hk : k < l.length) : load m (start f l k) (f l[k]).length = f l[k] := by
  have hend := start_add_le_image (f := f) hk
  refine List.ext_getElem (length_load ..) fun i hi hi' => ?_
  rw [length_load] at hi
  have hp : start f l k + i < (image f l).length := by omega
  simp only [load, List.getElem_map, List.getElem_range]
  rw [h.cells _ hp]
  simp only [image_split hk, List.append_assoc]
  rw [List.getElem_append_right (by rw [start]; omega),
    List.getElem_append_left (by rw [start]; omega)]
  simp only [start, Nat.add_sub_cancel_left]

/-- Records that can be read where they start make up the image. -/
theorem load_image {m : Nat → β} {l : List α}
    (h : ∀ k (hk : k < l.length), load m (start f l k) (f l[k]).length = f l[k]) :
    load m 0 (image f l).length = image f l := by
  induction l using List.reverseRecOn with
  | nil => rfl
  | append_singleton l a ih =>
    have hinit : ∀ k (hk : k < l.length), load m (start f l k) (f l[k]).length = f l[k] := by
      intro k hk
      have hrecord := h k (by rw [List.length_append]; omega)
      rwa [start_append (Nat.le_of_lt hk), List.getElem_append_left hk] at hrecord
    have hlast := h l.length (by rw [List.length_append, List.length_singleton]; omega)
    simp only [List.getElem_append_right (Nat.le_refl _), Nat.sub_self,
      List.getElem_singleton] at hlast
    rw [start_append (Nat.le_refl _), start_length] at hlast
    rw [image_snoc, List.length_append, load_add, ih hinit, Nat.zero_add, hlast]

/-- Records that are stored one by one. -/
theorem stored_of_records {m : Nat → β} {t : Nat → Nat} {l : List α}
    (h : ∀ k (hk : k < l.length), load m (start f l k) (f l[k]).length = f l[k])
    (ht : ∀ k, k < l.length → t k = start f l k) : Stored f m t l := by
  constructor
  · intro p hp
    have hp' : p < (load m 0 (image f l).length).length := by rwa [length_load]
    have hcell : (load m 0 (image f l).length)[p] = (image f l)[p] := by
      simp only [load_image h]
    rw [← hcell]
    simp only [load, List.getElem_map, List.getElem_range, Nat.zero_add]
  · exact ht

end Mqlog.Lib.Records
