/-
  Cyclic redundancy checks, for any register width, polynomial and width of the symbols.

  The register is shifted to the right, and the polynomial is added when a one falls out (`shift`):
  bits stand for coefficients in reflected order, the highest bit for the constant one.  A symbol is
  added to the register before as many shifts as it has bits (`step`), and `reg` takes in a list of
  symbols.

  * `step_eq_table` — shifts are linear, so that the shifts of a symbol can be looked up: the entry
    for the low bits of the register, added to the bits above them;
  * `reg_injective` — with a constant coefficient a shift loses nothing, so that registers which
    differ stay different;
  * `reg_symbols_injective` — symbols that fit into the register can be read off it;
  * `reg_ne_of_burst` — so a change confined to that many symbols in a row always shows.

  The last one puts the others together: in front of the change the registers are equal, across it
  they come to differ, since the symbols of the change could be read off them, and behind it they
  stay different.
-/
import Mathlib.Logic.Function.Basic

namespace Mqlog.Lib.Crc

variable {w k : Nat} (p : BitVec w)

/-- One shift of the register. -/
def shift (r : BitVec w) : BitVec w := if r.getLsbD 0 then (r >>> 1) ^^^ p else r >>> 1

/-- `n` shifts of the register. -/
def shifts : Nat → BitVec w → BitVec w
  | 0, r => r
  | n + 1, r => shifts n (shift p r)

/-- The register behind a symbol of `k` bits. -/
def step (r : BitVec w) (b : BitVec k) : BitVec w := shifts p k (r ^^^ b.setWidth w)

/-- The register behind a list of symbols. -/
def reg (r : BitVec w) (bs : List (BitVec k)) : BitVec w := bs.foldl (step p) r

/-! ## Shifts -/

variable {p}

/-- A shift is linear. -/
theorem shift_xor (a b : BitVec w) : shift p (a ^^^ b) = shift p a ^^^ shift p b := by
  simp only [shift, BitVec.getLsbD_xor, BitVec.ushiftRight_xor_distrib]
  cases a.getLsbD 0 with
  | false =>
    cases b.getLsbD 0 with
    | false => rfl
    | true => exact BitVec.xor_assoc _ _ _
  | true =>
    cases b.getLsbD 0 with
    | false =>
      show a >>> 1 ^^^ b >>> 1 ^^^ p = a >>> 1 ^^^ p ^^^ b >>> 1
      rw [BitVec.xor_assoc, BitVec.xor_comm (b >>> 1), BitVec.xor_assoc]
    | true =>
      -- the polynomial cancels out
      show a >>> 1 ^^^ b >>> 1 = a >>> 1 ^^^ p ^^^ (b >>> 1 ^^^ p)
      rw [BitVec.xor_comm (b >>> 1) p, BitVec.xor_assoc, ← BitVec.xor_assoc p p, BitVec.xor_self,
        BitVec.zero_xor]

/-- Shifts are linear. -/
theorem shifts_xor : ∀ (n : Nat) (a b : BitVec w), shifts p n (a ^^^ b) =
    shifts p n a ^^^ shifts p n b
  | 0, _, _ => rfl
  | n + 1, a, b => by
    rw [shifts, shifts, shifts, shift_xor]
    exact shifts_xor n _ _

/-- Shifts one after the other. -/
theorem shifts_add : ∀ (m n : Nat) (r : BitVec w), shifts p (m + n) r = shifts p n (shifts p m r)
  | 0, n, r => by rw [Nat.zero_add, shifts]
  | m + 1, n, r => by
    rw [Nat.succ_add, shifts, shifts]
    exact shifts_add m n _

/-- Zeroes that fall out change nothing else. -/
theorem shifts_of_low : ∀ (n : Nat) {r : BitVec w}, (∀ i, i < n → r.getLsbD i = false) →
    shifts p n r = r >>> n
  | 0, r, _ => by rw [shifts, BitVec.ushiftRight_zero]
  | n + 1, r, h => by
    have hshift : shift p r = r >>> 1 := by
      rw [shift, h 0 (Nat.succ_pos n), if_neg Bool.false_ne_true]
    rw [shifts, hshift, shifts_of_low n, ← BitVec.shiftRight_add, Nat.add_comm]
    intro i hi
    rw [BitVec.getLsbD_ushiftRight]
    exact h (1 + i) (by omega)

/-- A shift loses nothing, when the polynomial has a constant coefficient. -/
theorem eq_zero_of_shift (hp : p.msb = true) {r : BitVec w} (h : shift p r = 0#w) : r = 0#w := by
  have hbits : ∀ i, (shift p r).getLsbD i = false := by
    intro i
    rw [h]
    exact BitVec.getLsbD_zero
  cases hlow : r.getLsbD 0 with
  | true =>
    -- the highest bit of the register would be that of the polynomial
    have hmsb := hbits (w - 1)
    have hw : 0 < w := by
      by_contra hw
      rw [BitVec.getLsbD_of_ge r 0 (by omega)] at hlow
      cases hlow
    rw [shift, hlow, if_pos rfl, BitVec.getLsbD_xor, BitVec.getLsbD_ushiftRight,
      BitVec.getLsbD_of_ge r _ (by omega), ← BitVec.msb_eq_getLsbD_last, hp] at hmsb
    cases hmsb
  | false =>
    refine BitVec.eq_of_getLsbD_eq fun i _ => ?_
    rw [BitVec.getLsbD_zero]
    cases i with
    | zero => exact hlow
    | succ i =>
      have hbit := hbits i
      rw [shift, hlow, if_neg Bool.false_ne_true, BitVec.getLsbD_ushiftRight, Nat.add_comm] at hbit
      exact hbit

/-- A shift can be undone when the polynomial has its highest bit. -/
theorem shift_injective (hp : p.msb = true) : Function.Injective (shift p) := by
  intro a b h
  have hzero : shift p (a ^^^ b) = 0#w := by rw [shift_xor, h, BitVec.xor_self]
  exact BitVec.xor_eq_zero_iff.mp (eq_zero_of_shift hp hzero)

/-- Shifts can be undone when the polynomial has its highest bit. -/
theorem shifts_injective (hp : p.msb = true) : ∀ n, Function.Injective (shifts p n)
  | 0 => fun _ _ h => h
  | n + 1 => fun _ _ h => shift_injective hp (shifts_injective hp n h)

/-! ## The table -/

/-- The register is shifted by as many bits as the mask has: the bits that fall out are looked
    up. -/
theorem shifts_eq_table {m : BitVec w} (hm : ∀ i, i < w → m.getLsbD i = decide (i < k))
    (r : BitVec w) :
    shifts p k r = shifts p k (r &&& m) ^^^ (r >>> k) := by
  have hsplit : r = (r &&& m) ^^^ (r &&& ~~~m) := by
    refine BitVec.eq_of_getLsbD_eq fun i hi => ?_
    rw [BitVec.getLsbD_xor, BitVec.getLsbD_and, BitVec.getLsbD_and, BitVec.getLsbD_not,
      decide_eq_true hi]
    cases r.getLsbD i with
    | false => rfl
    | true =>
      cases m.getLsbD i with
      | false => rfl
      | true => rfl
  have hhigh : shifts p k (r &&& ~~~m) = r >>> k := by
    rw [shifts_of_low]
    · refine BitVec.eq_of_getLsbD_eq fun i _ => ?_
      rw [BitVec.getLsbD_ushiftRight, BitVec.getLsbD_ushiftRight, BitVec.getLsbD_and,
        BitVec.getLsbD_not]
      rcases Nat.lt_or_ge (k + i) w with hlt | hge
      · rw [hm _ hlt, decide_eq_true hlt, decide_eq_false (Nat.not_lt.mpr (Nat.le_add_right k i))]
        exact Bool.and_true _
      · rw [BitVec.getLsbD_of_ge r _ hge]
        rfl
    · intro i hi
      rw [BitVec.getLsbD_and, BitVec.getLsbD_not]
      rcases Nat.lt_or_ge i w with hlt | hge
      · rw [hm i hlt, decide_eq_true hi, Bool.not_true, Bool.and_false, Bool.and_false]
      · rw [BitVec.getLsbD_of_ge r _ hge]
        rfl
  calc shifts p k r
      = shifts p k ((r &&& m) ^^^ (r &&& ~~~m)) := congrArg _ hsplit
    _ = shifts p k (r &&& m) ^^^ (r >>> k) := by rw [shifts_xor, hhigh]

/-- **A symbol, by table**: the entry for the low bits, and the register shifted. -/
theorem step_eq_table {m : BitVec w} (hm : ∀ i, i < w → m.getLsbD i = decide (i < k))
    (r : BitVec w) (b : BitVec k) :
    step p r b = shifts p k ((r ^^^ b.setWidth w) &&& m) ^^^ (r >>> k) := by
  have hzero : (b.setWidth w) >>> k = 0#w := by
    refine BitVec.eq_of_getLsbD_eq fun i _ => ?_
    rw [BitVec.getLsbD_ushiftRight, BitVec.getLsbD_setWidth,
      BitVec.getLsbD_of_ge b _ (Nat.le_add_right k i), Bool.and_false, BitVec.getLsbD_zero]
  rw [step, shifts_eq_table hm, BitVec.ushiftRight_xor_distrib, hzero, BitVec.xor_zero]

/-! ## Lists of symbols -/

/-- One buffer behind the other. -/
theorem reg_append (r : BitVec w) (bs bs' : List (BitVec k)) :
    reg p r (bs ++ bs') = reg p (reg p r bs) bs' := List.foldl_append

/-- **Registers that differ stay different.** -/
theorem reg_injective (hp : p.msb = true) :
    ∀ (bs : List (BitVec k)), Function.Injective fun r => reg p r bs
  | [] => fun _ _ h => h
  | _ :: bs => fun _ _ h =>
    (BitVec.xor_left_inj _).mp (shifts_injective hp k (reg_injective hp bs h))

/-- The symbols side by side, the first one in the lowest bits. -/
def pack : List (BitVec k) → BitVec w
  | [] => 0#w
  | b :: bs => b.setWidth w ^^^ (pack bs <<< k)

/-- Packed symbols reach no further than their bits. -/
theorem pack_high : ∀ (bs : List (BitVec k)) {i : Nat}, k * bs.length ≤ i →
    (pack bs : BitVec w).getLsbD i = false
  | [], i, _ => BitVec.getLsbD_zero
  | b :: bs, i, h => by
    rw [List.length_cons, Nat.mul_succ] at h
    rw [pack, BitVec.getLsbD_xor, BitVec.getLsbD_setWidth, BitVec.getLsbD_of_ge b i (by omega),
      Bool.and_false, BitVec.getLsbD_shiftLeft, pack_high bs (by omega), Bool.and_false]
    rfl

/-- As long as no symbol has fallen out, the register is that of all symbols at once. -/
theorem reg_eq_shifts : ∀ (bs : List (BitVec k)) (r : BitVec w), k * bs.length ≤ w →
    reg p r bs = shifts p (k * bs.length) (r ^^^ pack bs)
  | [], r, _ => by
    rw [List.length_nil, Nat.mul_zero, shifts, pack, BitVec.xor_zero]
    rfl
  | b :: bs, r, h => by
    rw [List.length_cons, Nat.mul_succ] at h
    -- the other symbols come down to the lowest bits
    have hdown : shifts p k ((pack bs : BitVec w) <<< k) = pack bs := by
      rw [shifts_of_low]
      · refine BitVec.eq_of_getLsbD_eq fun i hi => ?_
        rw [BitVec.getLsbD_ushiftRight, BitVec.getLsbD_shiftLeft, Nat.add_sub_cancel_left,
          decide_eq_false (Nat.not_lt.mpr (Nat.le_add_right k i)), Bool.not_false, Bool.and_true]
        rcases Nat.lt_or_ge (k + i) w with hlt | hge
        · rw [decide_eq_true hlt, Bool.true_and]
        · rw [pack_high bs (by omega), Bool.and_false]
      · intro i hi
        rw [BitVec.getLsbD_shiftLeft, decide_eq_true hi, Bool.not_true, Bool.and_false,
          Bool.false_and]
    calc reg p r (b :: bs)
        = shifts p (k * bs.length) (step p r b ^^^ pack bs) := reg_eq_shifts bs _ (by omega)
      _ = shifts p (k * bs.length) (shifts p k (r ^^^ b.setWidth w ^^^ (pack bs <<< k))) := by
        rw [shifts_xor k, hdown, step]
      _ = shifts p (k * (b :: bs).length) (r ^^^ pack (b :: bs)) := by
        rw [← shifts_add, List.length_cons, Nat.mul_succ, Nat.add_comm, pack, BitVec.xor_assoc]

/-- Symbols that fit into a word can be told apart in it. -/
theorem pack_injective : ∀ {bs bs' : List (BitVec k)}, bs.length = bs'.length → k * bs.length ≤ w →
    (pack bs : BitVec w) = pack bs' → bs = bs'
  | [], [], _, _, _ => rfl
  | b :: bs, b' :: bs', hlen, h, heq => by
    rw [List.length_cons, Nat.mul_succ] at h
    have hbits : ∀ i, (pack (b :: bs) : BitVec w).getLsbD i =
        (pack (b' :: bs') : BitVec w).getLsbD i := by
      intro i
      rw [heq]
    have hhead : b = b' := by
      refine BitVec.eq_of_getLsbD_eq fun i hi => ?_
      have hbit := hbits i
      simp only [pack, BitVec.getLsbD_xor, BitVec.getLsbD_setWidth, BitVec.getLsbD_shiftLeft,
        decide_eq_true hi, decide_eq_true (show i < w by omega), Bool.not_true, Bool.and_false,
        Bool.false_and, Bool.true_and, Bool.xor_false] at hbit
      exact hbit
    have htail : (pack bs : BitVec w) = pack bs' := by
      refine BitVec.eq_of_getLsbD_eq fun i hi => ?_
      rcases Nat.lt_or_ge (k + i) w with hlt | hge
      · have hbit := hbits (k + i)
        simp only [pack, BitVec.getLsbD_xor, BitVec.getLsbD_setWidth, BitVec.getLsbD_shiftLeft,
          decide_eq_true hlt, decide_eq_false (Nat.not_lt.mpr (Nat.le_add_right k i)),
          BitVec.getLsbD_of_ge b _ (Nat.le_add_right k i),
            BitVec.getLsbD_of_ge b' _ (Nat.le_add_right k i),
          Bool.not_false, Bool.and_false, Bool.true_and, Bool.false_xor,
            Nat.add_sub_cancel_left] at hbit
        exact hbit
      · rw [pack_high bs (by omega), pack_high bs' (by rw [← Nat.succ.inj hlen]; omega)]
    rw [hhead, pack_injective (Nat.succ.inj hlen) (by omega) htail]

/-- **Symbols that fit into the register can be read off it.** -/
theorem reg_symbols_injective (hp : p.msb = true) {bs bs' : List (BitVec k)} {r : BitVec w}
    (hlen : bs.length = bs'.length) (hfit : k * bs.length ≤ w) (h : reg p r bs = reg p r bs') :
    bs = bs' := by
  rw [reg_eq_shifts bs r hfit, reg_eq_shifts bs' r (by rwa [← hlen]), hlen] at h
  exact pack_injective hlen hfit ((BitVec.xor_right_inj r).mp (shifts_injective hp _ h))

/-- **A change of so many symbols in a row shows.** -/
theorem reg_ne_of_burst (hp : p.msb = true) {before burst burst' after : List (BitVec k)}
    {r : BitVec w} (hlen : burst.length = burst'.length) (hfit : k * burst.length ≤ w)
    (hne : burst ≠ burst') :
    reg p r (before ++ burst ++ after) ≠ reg p r (before ++ burst' ++ after) := by
  intro h
  rw [reg_append, reg_append, reg_append _ _ after, reg_append _ before] at h
  exact hne (reg_symbols_injective hp hlen hfit (reg_injective hp after h))

end Mqlog.Lib.Crc
