import Mathlib.Data.BitVec
import Mathlib.Algebra.Order.Ring.Nat
import Mathlib.Data.Nat.Bitwise
import Mathlib.Tactic.Ring

/-!
# Fields of a word

Masks and shifts that read a field of a word or put one in place, as
arithmetic on the number the word is. A mask is any word with the number of
the mask, so that it may be spelled as the code spells it.
-/

namespace Moth.Lib.BitFields

variable {w k : Nat} {x y m : BitVec w}

theorem toNat_and_low (hm : m.toNat = 2 ^ k - 1) : (x &&& m).toNat = x.toNat % 2 ^ k := by
  rw [BitVec.toNat_and, hm, Nat.and_two_pow_sub_one_eq_mod]

theorem toNat_shiftRight (x : BitVec w) (k : Nat) : (x >>> k).toNat = x.toNat / 2 ^ k := by
  rw [BitVec.toNat_ushiftRight, Nat.shiftRight_eq_div_pow]

theorem toNat_shiftLeft (h : x.toNat * 2 ^ k < 2 ^ w) : (x <<< k).toNat = x.toNat * 2 ^ k := by
  rw [BitVec.toNat_shiftLeft, Nat.shiftLeft_eq, Nat.mod_eq_of_lt h]

theorem toNat_or {a : Nat} (hx : x.toNat = a * 2 ^ k) (hy : y.toNat < 2 ^ k) :
    (x ||| y).toNat = a * 2 ^ k + y.toNat := by
  rw [BitVec.toNat_or, hx, ← Nat.shiftLeft_eq, Nat.shiftLeft_add_eq_or_of_lt hy]

/-- The mask of the one bit above all the others. -/
theorem toNat_and_bit (hm : m.toNat = 2 ^ k) (hx : x.toNat < 2 ^ (k + 1)) :
    (x &&& m).toNat = if 2 ^ k ≤ x.toNat then 2 ^ k else 0 := by
  have hk : k < w := by
    rw [← Nat.pow_lt_pow_iff_right Nat.one_lt_two, ← hm]
    exact m.isLt
  have hmask : m = BitVec.twoPow w k := by
    apply BitVec.eq_of_toNat_eq
    rw [hm, BitVec.toNat_twoPow, Nat.mod_eq_of_lt (Nat.pow_lt_pow_right Nat.one_lt_two hk)]
  have hbit : x.getLsbD k = decide (2 ^ k ≤ x.toNat) := by
    rw [← BitVec.testBit_toNat, Nat.testBit_eq_decide_div_mod_eq, decide_eq_decide]
    rcases Nat.lt_or_ge x.toNat (2 ^ k) with hlow | htop
    · rw [Nat.div_eq_of_lt hlow]
      omega
    · have hdiv : x.toNat / 2 ^ k = 1 := by
        rw [Nat.pow_succ] at hx
        apply Nat.div_eq_of_lt_le <;> omega
      rw [hdiv]
      omega
  rw [hmask, BitVec.and_twoPow, hbit]
  by_cases htop : 2 ^ k ≤ x.toNat
  · rw [decide_eq_true htop, if_pos rfl, if_pos htop, ← hmask, hm]
  · rw [decide_eq_false htop, if_neg (by simp), if_neg htop]
    rfl

end Moth.Lib.BitFields

/-!
## Words of two fields

A word whose low `k` bits are one field and whose other bits are another.
-/

namespace Moth.Lib

variable {w : Nat}

theorem pack_toNat {high low : BitVec w} {k : Nat} (hlow : low.toNat < 2 ^ k)
    (hfits : high.toNat * 2 ^ k + low.toNat < 2 ^ w) :
    (high <<< k ||| low).toNat = high.toNat * 2 ^ k + low.toNat := by
  have hhigh : high.toNat * 2 ^ k < 2 ^ w := Nat.lt_of_le_of_lt (Nat.le_add_right _ _) hfits
  rw [BitVec.toNat_or, BitVec.toNat_shiftLeft, Nat.shiftLeft_eq, Nat.mod_eq_of_lt hhigh,
    ← Nat.shiftLeft_eq, ← Nat.shiftLeft_add_eq_or_of_lt hlow, Nat.shiftLeft_eq]

theorem field_low {word : BitVec w} {k : Nat} (hk : k ≤ w) :
    (word &&& BitVec.ofNat w (2 ^ k - 1)).toNat = word.toNat % 2 ^ k := by
  have hmask : 2 ^ k - 1 < 2 ^ w := by
    have := Nat.pow_le_pow_right (show 1 ≤ 2 by omega) hk
    have := Nat.two_pow_pos k
    omega
  rw [BitVec.toNat_and, BitVec.toNat_ofNat, Nat.mod_eq_of_lt hmask, Nat.and_two_pow_sub_one_eq_mod]

theorem field_high (word : BitVec w) (k : Nat) : (word >>> k).toNat = word.toNat / 2 ^ k := by
  rw [BitVec.toNat_ushiftRight, Nat.shiftRight_eq_div_pow]

theorem pack_low {high low : BitVec w} {k : Nat} (hk : k ≤ w) (hlow : low.toNat < 2 ^ k)
    (hfits : high.toNat * 2 ^ k + low.toNat < 2 ^ w) :
    (high <<< k ||| low) &&& BitVec.ofNat w (2 ^ k - 1) = low := by
  refine BitVec.eq_of_toNat_eq ?_
  rw [field_low hk, pack_toNat hlow hfits, Nat.add_comm, Nat.add_mul_mod_self_right,
    Nat.mod_eq_of_lt hlow]

theorem pack_high {high low : BitVec w} {k : Nat} (hlow : low.toNat < 2 ^ k)
    (hfits : high.toNat * 2 ^ k + low.toNat < 2 ^ w) :
    (high <<< k ||| low) >>> k = high := by
  refine BitVec.eq_of_toNat_eq ?_
  rw [field_high, pack_toNat hlow hfits, Nat.add_comm, Nat.add_mul_div_right _ _ (Nat.two_pow_pos k),
    Nat.div_eq_of_lt hlow, Nat.zero_add]

end Moth.Lib
