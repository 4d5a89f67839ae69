import Mathlib.Tactic.Ring
import Mathlib.Tactic.Linarith
import Mathlib.Tactic.Positivity
import Mathlib.Algebra.Order.Ring.Int

/-!
# Square and multiply, checked

A power is computed from the bits of its exponent: an accumulator takes the
factor of every odd bit, and the factor is squared between bits. Where every
product is checked against an interval, the loop fails as soon as one of them
leaves it; the facts here are that the power itself then leaves it too.

A product only grows by what is still to be multiplied in, and so stays
outside. A needed square can meet an accumulator of the other sign, which is
why the interval must not have a square between its two magnitudes.
-/

namespace Moth.Lib

/-- An interval whose larger magnitude is not first reached by a square. -/
structure PowerRange (low high : Int) : Prop where
  nonpos : low ≤ 0
  one_le : 1 ≤ high
  square : ∀ f : Int, high < f * f → -low < f * f

namespace PowerRange

variable {low high : Int}

theorem outside_mul (h : PowerRange low high) {x m : Int} (hm : 1 ≤ m)
    (hx : ¬(low ≤ x ∧ x ≤ high)) : ¬(low ≤ x * m ∧ x * m ≤ high) := by
  have hlow := h.nonpos
  have hhigh := h.one_le
  rcases Int.lt_or_le x 0 with hneg | hnonneg
  · have hle : x * m ≤ x * 1 := Int.mul_le_mul_of_nonpos_left (by omega) hm
    omega
  · have hle : x * 1 ≤ x * m := Int.mul_le_mul_of_nonneg_left hm hnonneg
    omega

theorem one_le_square {f : Int} (hf : f ≠ 0) : 1 ≤ f * f := by
  have hpos : 0 < f * f := mul_self_pos.2 hf
  omega

theorem outside_of_product (h : PowerRange low high) {d f : Int} (k : Nat)
    (hout : ¬(low ≤ d * f ∧ d * f ≤ high)) :
    ¬(low ≤ d * f * (f * f) ^ k ∧ d * f * (f * f) ^ k ≤ high) := by
  have hf : f ≠ 0 := by
    rintro rfl
    rw [Int.mul_zero] at hout
    exact hout ⟨h.nonpos, le_trans (by decide) h.one_le⟩
  have hone : 1 ≤ (f * f) ^ k := one_le_pow₀ (one_le_square hf)
  exact h.outside_mul hone hout

theorem outside_of_square (h : PowerRange low high) {d f : Int} {k : Nat} (hd : d = 0 → f = 0)
    (hk : k ≠ 0) (hout : ¬(low ≤ f * f ∧ f * f ≤ high)) :
    ¬(low ≤ d * (f * f) ^ k ∧ d * (f * f) ^ k ≤ high) := by
  have hnonneg : 0 ≤ f * f := mul_self_nonneg f
  have hhigh : high < f * f := by
    have hlow := h.nonpos
    omega
  have hlow : -low < f * f := h.square f hhigh
  have hone : 1 ≤ f * f := by
    have hle := h.one_le
    omega
  have hgrow : f * f ≤ (f * f) ^ k := le_self_pow₀ hone hk
  rcases lt_trichotomy 0 d with hpos | hzero | hneg
  · have hle : (f * f) ^ k ≤ d * (f * f) ^ k := le_mul_of_one_le_left (by omega) hpos
    omega
  · rw [hd hzero.symm] at hone
    exact absurd hone (by decide)
  · have hle : (f * f) ^ k ≤ -d * (f * f) ^ k := le_mul_of_one_le_left (by omega) (by omega)
    rw [Int.neg_mul] at hle
    omega

end PowerRange

theorem pow_bit (d f : Int) (e : Nat) :
    d * f ^ e = (if e % 2 = 1 then d * f else d) * (f * f) ^ (e / 2) := by
  have hexponent := Nat.div_add_mod e 2
  rw [← pow_two, ← pow_mul]
  rcases Nat.mod_two_eq_zero_or_one e with hbit | hbit
  · rw [hbit, Nat.add_zero] at hexponent
    rw [hbit, if_neg (by decide), hexponent]
  · rw [hbit] at hexponent
    rw [hbit, if_pos rfl, mul_assoc, ← pow_succ', hexponent]

end Moth.Lib
