import Mathlib.Data.BitVec
import Mathlib.Tactic.Ring
import Mathlib.Tactic.Positivity

/-!
# Overflow tests

What a machine computes to know that an exact result does not fit, against
the exact result: sign tests on the wrapped sum or difference, a wrap compare,
and quotients of the largest and smallest values for products.
-/

/-!
## Exact integers in bit vectors

An integer goes into a bit vector modulo the width and comes back exactly from
either reading's range. Widening by the reading that holds the integer, and
narrowing always, keep what went in; sums and differences commute with going
in, so wrapping arithmetic is exact arithmetic seen late.
-/

namespace Moth.Lib

theorem toNat_ofInt_of_range {w : Nat} {n : Int} (h0 : 0 ≤ n) (h : n < 2 ^ w) :
    ((BitVec.ofInt w n).toNat : Int) = n := by
  have hcast : ((2 ^ w : Nat) : Int) = 2 ^ w := by push_cast; rfl
  rw [BitVec.toNat_ofInt, hcast, Int.emod_eq_of_lt h0 h, Int.toNat_of_nonneg h0]

theorem ofInt_sub {w : Nat} (x y : Int) :
    BitVec.ofInt w (x - y) = BitVec.ofInt w x - BitVec.ofInt w y := by
  have hadd := BitVec.ofInt_add (n := w) x (-y)
  rw [BitVec.ofInt_neg, ← BitVec.sub_eq_add_neg] at hadd
  exact hadd

theorem ofInt_toNat {w : Nat} (b : BitVec w) : BitVec.ofInt w b.toNat = b := by
  rw [BitVec.ofInt_natCast, BitVec.ofNat_toNat, BitVec.setWidth_eq]

theorem signExtend_ofInt {v w : Nat} (hv : 0 < v) {n : Int}
    (hlow : -2 ^ (v - 1) ≤ n) (hhigh : n < 2 ^ (v - 1)) :
    (BitVec.ofInt v n).signExtend w = BitVec.ofInt w n := by
  rw [BitVec.signExtend, BitVec.toInt_ofInt_eq_self hv hlow hhigh]

theorem zeroExtend_ofInt {v w : Nat} {n : Int} (h0 : 0 ≤ n) (h : n < 2 ^ v) :
    (BitVec.ofInt v n).zeroExtend w = BitVec.ofInt w n := by
  have hnat := toNat_ofInt_of_range h0 h
  rw [BitVec.zeroExtend_eq_setWidth, ← BitVec.ofNat_toNat, ← BitVec.ofInt_natCast, hnat]

theorem truncate_ofInt {v w : Nat} (h : w ≤ v) (n : Int) :
    (BitVec.ofInt v n).truncate w = BitVec.ofInt w n := by
  apply BitVec.eq_of_toInt_eq
  rw [BitVec.truncate_eq_setWidth, BitVec.toInt_setWidth, BitVec.toInt_ofInt,
    BitVec.toNat_ofInt]
  have hpos : (0 : Int) < (2 ^ v : Nat) := by
    exact_mod_cast Nat.two_pow_pos v
  rw [Int.toNat_of_nonneg (Int.emod_nonneg _ (ne_of_gt hpos))]
  have hdvd : ((2 ^ w : Nat) : Int) ∣ ((2 ^ v : Nat) : Int) := by
    exact_mod_cast Nat.pow_dvd_pow 2 h
  rw [Int.bmod_def, Int.bmod_def, Int.emod_emod_of_dvd _ hdvd]

theorem odd_test {w : Nat} (hw : 0 < w) (e : Nat) :
    ((BitVec.ofNat w e &&& 1#w) != 0#w) = decide (e % 2 = 1) := by
  have hdvd : 2 ∣ 2 ^ w := dvd_pow_self 2 (by omega)
  have hone : 1 % 2 ^ w = 1 := Nat.mod_eq_of_lt (Nat.one_lt_two_pow (by omega))
  rw [Bool.eq_iff_iff, bne_iff_ne, decide_eq_true_eq, Ne, ← BitVec.toNat_inj, BitVec.toNat_and,
    BitVec.toNat_ofNat, BitVec.toNat_ofNat, BitVec.toNat_ofNat, Nat.zero_mod, hone,
    Nat.and_one_is_mod, Nat.mod_mod_of_dvd e hdvd]
  omega

theorem shiftRight_one {w e : Nat} (h : e < 2 ^ w) :
    BitVec.ofNat w e >>> 1 = BitVec.ofNat w (e / 2) := by
  apply BitVec.eq_of_toNat_eq
  rw [BitVec.toNat_ushiftRight, BitVec.toNat_ofNat, BitVec.toNat_ofNat, Nat.mod_eq_of_lt h,
    Nat.shiftRight_one, Nat.mod_eq_of_lt (by omega)]

end Moth.Lib

namespace Moth.Lib

variable {w : Nat}

theorem saddOverflow_eq_not (x y : BitVec w) : x.saddOverflow y =
    !decide (-2 ^ (w - 1) ≤ x.toInt + y.toInt ∧ x.toInt + y.toInt ≤ 2 ^ (w - 1) - 1) := by
  rw [BitVec.saddOverflow, Bool.eq_iff_iff, Bool.or_eq_true, Bool.not_eq_true',
    decide_eq_true_eq, decide_eq_true_eq, decide_eq_false_iff_not]
  omega

theorem ssubOverflow_eq_not (x y : BitVec w) : x.ssubOverflow y =
    !decide (-2 ^ (w - 1) ≤ x.toInt - y.toInt ∧ x.toInt - y.toInt ≤ 2 ^ (w - 1) - 1) := by
  rw [BitVec.ssubOverflow, Bool.eq_iff_iff, Bool.or_eq_true, Bool.not_eq_true',
    decide_eq_true_eq, decide_eq_true_eq, decide_eq_false_iff_not]
  omega

theorem uaddOverflow_eq_not (x y : BitVec w) : x.uaddOverflow y =
    !decide ((0 : Int) ≤ x.toNat + y.toNat ∧ (x.toNat + y.toNat : Int) ≤ 2 ^ w - 1) := by
  have hcast : ((2 ^ w : Nat) : Int) = 2 ^ w := by push_cast; rfl
  rw [BitVec.uaddOverflow, Bool.eq_iff_iff, Bool.not_eq_true', decide_eq_true_eq,
    decide_eq_false_iff_not]
  omega

theorem ult_eq_not (x y : BitVec w) : x.ult y =
    !decide ((0 : Int) ≤ x.toNat - y.toNat ∧ (x.toNat - y.toNat : Int) ≤ 2 ^ w - 1) := by
  have hcast : ((2 ^ w : Nat) : Int) = 2 ^ w := by push_cast; rfl
  have hx := x.isLt
  rw [BitVec.ult, Bool.eq_iff_iff, Bool.not_eq_true', decide_eq_true_eq,
    decide_eq_false_iff_not]
  omega

theorem signedAdd_test (x y : BitVec w) :
    ((x ^^^ (x + y)) &&& (y ^^^ (x + y))).slt 0#w = x.saddOverflow y := by
  rw [BitVec.slt_zero_eq_msb, BitVec.msb_and, BitVec.msb_xor, BitVec.msb_xor,
    BitVec.saddOverflow_eq]
  cases x.msb <;> cases y.msb <;> cases (x + y).msb <;> rfl

theorem signedSub_test (x y : BitVec w) :
    ((x ^^^ y) &&& (x ^^^ (x - y))).slt 0#w = x.ssubOverflow y := by
  rw [BitVec.slt_zero_eq_msb, BitVec.msb_and, BitVec.msb_xor, BitVec.msb_xor,
    BitVec.ssubOverflow_eq]
  cases x.msb <;> cases y.msb <;> cases (x - y).msb <;> rfl

theorem unsignedAdd_test (x y : BitVec w) : (x + y).ult x = x.uaddOverflow y := by
  rw [BitVec.ult, BitVec.uaddOverflow, decide_eq_decide, BitVec.toNat_add]
  have hx := x.isLt
  have hy := y.isLt
  by_cases hfit : x.toNat + y.toNat < 2 ^ w
  · rw [Nat.mod_eq_of_lt hfit]
    omega
  · rw [Nat.mod_eq_sub_mod (by omega), Nat.mod_eq_of_lt (by omega)]
    omega

theorem unsignedMul_test {x : BitVec w} (y : BitVec w) (hx : x ≠ 0#w) :
    (BitVec.allOnes w / x).ult y = x.umulOverflow y := by
  have hpos : 0 < x.toNat := by
    apply Nat.pos_of_ne_zero
    intro hzero
    exact hx (BitVec.eq_of_toNat_eq hzero)
  have htwo := Nat.two_pow_pos w
  rw [BitVec.ult, BitVec.umulOverflow, decide_eq_decide, BitVec.toNat_udiv,
    BitVec.toNat_allOnes, Nat.div_lt_iff_lt_mul hpos, Nat.mul_comm y.toNat]
  omega

theorem tdiv_lt_iff {n a b : Int} (hn : 0 ≤ n) (hb : 0 < b) : n.tdiv b < a ↔ n < a * b := by
  rw [Int.tdiv_eq_ediv_of_nonneg hn]
  exact Int.ediv_lt_iff_lt_mul hb

/-- The sign branches of a signed product: each compares one factor with the
quotient of the bound that its sign can pass. -/
theorem signedMul_test {low high l r : Int} (hlow : low ≤ 0) (hhigh : 0 ≤ high) :
    (if 0 < r then
      if 0 < l then high.tdiv r < l else if l < 0 then l < low.tdiv r else False
    else if r < 0 then
      if 0 < l then r < low.tdiv l else if l < 0 then r < high.tdiv l else False
    else False) ↔ ¬(low ≤ l * r ∧ l * r ≤ high) := by
  have hneg : ∀ a b : Int, 0 < b → (a < low.tdiv b ↔ a * b < low) := by
    intro a b hb
    have h := tdiv_lt_iff (n := -low) (a := -a) (by omega) hb
    rw [Int.neg_tdiv, Int.neg_mul] at h
    omega
  have hboth : ∀ a b : Int, b < 0 → (a < high.tdiv b ↔ high < a * b) := by
    intro a b hb
    have h := tdiv_lt_iff (n := high) (a := -a) (b := -b) hhigh (by omega)
    rw [Int.tdiv_neg, Int.neg_mul_neg] at h
    omega
  rcases lt_trichotomy 0 r with hr | rfl | hr
  · rw [if_pos hr]
    rcases lt_trichotomy 0 l with hl | rfl | hl
    · have hpos := Int.mul_pos hl hr
      rw [if_pos hl, tdiv_lt_iff hhigh hr]
      omega
    · simp [hlow, hhigh]
    · have hprod := Int.mul_neg_of_neg_of_pos hl hr
      rw [if_neg (by omega), if_pos hl, hneg l r hr]
      omega
  · simp [hlow, hhigh]
  · rw [if_neg (by omega), if_pos hr]
    rcases lt_trichotomy 0 l with hl | rfl | hl
    · have hprod := Int.mul_neg_of_pos_of_neg hl hr
      rw [if_pos hl, hneg r l hl, Int.mul_comm r l]
      omega
    · simp [hlow, hhigh]
    · have hpos := Int.mul_pos_of_neg_of_neg hl hr
      rw [if_neg (by omega), if_pos hl, hboth r l hl, Int.mul_comm r l]
      omega

end Moth.Lib
