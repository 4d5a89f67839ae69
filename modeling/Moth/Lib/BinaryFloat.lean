import Mathlib.Algebra.Order.Field.Basic
import Mathlib.Algebra.Order.Group.Abs
import Mathlib.Algebra.Order.AbsoluteValue.Basic
import Mathlib.Data.Rat.Cast.Order
import Mathlib.Order.Monotone.Basic
import Mathlib.Tactic.Linarith
import Mathlib.Tactic.Ring
import Mathlib.Tactic.NormNum
import Mathlib.Tactic.Positivity
import Mathlib.Tactic.FieldSimp
import Mathlib.Data.Rat.Floor
import Mathlib.Tactic.LinearCombination
import Moth.Lib.HalfEven

/-!
# Binary floating-point formats

A format is the widths of its two fields. A pattern is a natural number: the
trailing significand in the low bits, the biased exponent above it, the sign
above both. `units` is the magnitude a pattern denotes, counted in the least
subnormal of the format, which makes it an integer for every pattern; the
exponent field being above the significand, it grows with the pattern, so
neighbours in value are neighbours as numbers.

The pattern of infinity takes part in the ordering as the power of two that
the next binade would start at. Rounding to nearest under IEEE 754 treats it
so: a magnitude is rounded to infinity from the midpoint of that power of two
and the largest finite value on, and `RoundsTo` needs no clause of its own for
overflow.
-/

namespace Moth.Lib

structure BinaryFormat where
  fractionBits : Nat
  exponentBits : Nat

namespace BinaryFormat

def binary16 : BinaryFormat := ⟨10, 5⟩
def binary32 : BinaryFormat := ⟨23, 8⟩
def binary64 : BinaryFormat := ⟨52, 11⟩

variable (f : BinaryFormat)

/-- The weight of the sign bit, one more than the largest magnitude. -/
def signWeight : Nat := 2 ^ (f.exponentBits + f.fractionBits)

/-- The magnitude of infinity. -/
def infinity : Nat := (2 ^ f.exponentBits - 1) * 2 ^ f.fractionBits

def magnitude (p : Nat) : Nat := p % f.signWeight

def negative (p : Nat) : Bool := decide (f.signWeight ≤ p)

def IsFinite (p : Nat) : Prop := f.magnitude p < f.infinity

instance (p : Nat) : Decidable (f.IsFinite p) := inferInstanceAs (Decidable (_ < _))

/-- What a magnitude counts in least subnormals. -/
def units (a : Nat) : Nat :=
  if a / 2 ^ f.fractionBits = 0 then a
  else (2 ^ f.fractionBits + a % 2 ^ f.fractionBits) * 2 ^ (a / 2 ^ f.fractionBits - 1)

/-- The least subnormal. -/
def leastUnit : ℚ := 2 ^ (2 - 2 ^ (f.exponentBits - 1) - f.fractionBits : ℤ)

def magnitudeValue (a : Nat) : ℚ := f.units a * f.leastUnit

/-- The number a finite pattern denotes, in least subnormals. -/
def signedUnits (p : Nat) : ℤ :=
  if f.negative p then -(f.units (f.magnitude p) : ℤ) else f.units (f.magnitude p)

/-- The number a finite pattern denotes. -/
def value (p : Nat) : ℚ := f.signedUnits p * f.leastUnit

theorem leastUnit_pos : 0 < f.leastUnit := zpow_pos (by norm_num) _

theorem signWeight_pos : 0 < f.signWeight := Nat.two_pow_pos _

theorem infinity_lt_signWeight : f.infinity < f.signWeight := by
  unfold infinity signWeight
  rw [Nat.pow_add]
  exact Nat.mul_lt_mul_of_pos_right (Nat.sub_lt (Nat.two_pow_pos _) Nat.one_pos)
    (Nat.two_pow_pos _)

/-! ## Patterns and magnitudes -/

/-- A pattern from its two halves. -/
def pattern (negative : Bool) (a : Nat) : Nat := (if negative then f.signWeight else 0) + a

variable {f}

theorem magnitude_pattern {s : Bool} {a : Nat} (ha : a < f.signWeight) :
    f.magnitude (f.pattern s a) = a := by
  unfold magnitude pattern
  cases s with
  | false => simpa using Nat.mod_eq_of_lt ha
  | true => simpa using Nat.mod_eq_of_lt ha

theorem negative_pattern {s : Bool} {a : Nat} (ha : a < f.signWeight) :
    f.negative (f.pattern s a) = s := by
  unfold negative pattern
  cases s with
  | false => simpa using ha
  | true => simp

theorem magnitude_lt (p : Nat) : f.magnitude p < f.signWeight := Nat.mod_lt _ f.signWeight_pos

theorem pattern_negative_magnitude {p : Nat} (hp : p < 2 * f.signWeight) :
    f.pattern (f.negative p) (f.magnitude p) = p := by
  unfold pattern negative magnitude
  by_cases hneg : f.signWeight ≤ p
  · have hmod : p % f.signWeight = p - f.signWeight := by
      rw [Nat.mod_eq_sub_mod hneg, Nat.mod_eq_of_lt (by omega)]
    simp only [hneg, decide_true, if_true, hmod]
    omega
  · have hmod : p % f.signWeight = p := Nat.mod_eq_of_lt (by omega)
    simp [hneg, hmod]

/-! ## The order of magnitudes -/

variable (f)

/-- How far the next magnitude is. -/
def step (a : Nat) : Nat := 2 ^ (a / 2 ^ f.fractionBits - 1)

theorem step_pos (a : Nat) : 0 < f.step a := Nat.two_pow_pos _

theorem units_normal {e F : Nat} (hF : F < 2 ^ f.fractionBits) (he : 0 < e) :
    f.units (e * 2 ^ f.fractionBits + F) = (2 ^ f.fractionBits + F) * 2 ^ (e - 1) := by
  have hdiv : (e * 2 ^ f.fractionBits + F) / 2 ^ f.fractionBits = e := by
    rw [Nat.mul_comm, Nat.mul_add_div (Nat.two_pow_pos _), Nat.div_eq_of_lt hF, Nat.add_zero]
  have hmod : (e * 2 ^ f.fractionBits + F) % 2 ^ f.fractionBits = F := by
    rw [Nat.mul_comm, Nat.mul_add_mod, Nat.mod_eq_of_lt hF]
  rw [units, hdiv, hmod, if_neg (by omega)]

theorem units_subnormal {a : Nat} (ha : a < 2 ^ f.fractionBits) : f.units a = a :=
  if_pos (Nat.div_eq_of_lt ha)

theorem units_succ (a : Nat) : f.units (a + 1) = f.units a + f.step a := by
  have hpos : 0 < 2 ^ f.fractionBits := Nat.two_pow_pos _
  have hsplit := Nat.div_add_mod' a (2 ^ f.fractionBits)
  have hlt := Nat.mod_lt a hpos
  have hstep : f.step a = 2 ^ (a / 2 ^ f.fractionBits - 1) := rfl
  generalize a / 2 ^ f.fractionBits = e at hsplit hstep
  generalize a % 2 ^ f.fractionBits = F at hsplit hlt
  rw [hstep, ← hsplit]
  by_cases hcarry : F + 1 < 2 ^ f.fractionBits
  · rw [Nat.add_assoc]
    rcases Nat.eq_zero_or_pos e with rfl | he
    · rw [Nat.zero_mul, Nat.zero_add, Nat.zero_add, f.units_subnormal hcarry,
        f.units_subnormal hlt]
      rfl
    · rw [f.units_normal hcarry he, f.units_normal hlt he]
      ring
  · have hF : F + 1 = 2 ^ f.fractionBits := by omega
    have hnext : e * 2 ^ f.fractionBits + F + 1 = (e + 1) * 2 ^ f.fractionBits + 0 := by
      rw [Nat.add_assoc, hF]
      ring
    rw [hnext, f.units_normal hpos (Nat.succ_pos e), Nat.add_zero, Nat.succ_sub_one]
    rcases Nat.eq_zero_or_pos e with rfl | he
    · rw [Nat.zero_mul, Nat.zero_add, f.units_subnormal hlt, ← hF]
      simp
    · obtain ⟨k, rfl⟩ := Nat.exists_eq_add_of_lt he
      rw [f.units_normal hlt he, ← hF, Nat.zero_add, Nat.add_sub_cancel, Nat.pow_succ]
      ring

theorem units_strictMono : StrictMono f.units :=
  strictMono_nat_of_lt_succ fun a => by
    rw [units_succ]
    exact Nat.lt_add_of_pos_right (f.step_pos a)

theorem magnitudeValue_strictMono : StrictMono f.magnitudeValue := by
  intro a b hab
  have hunits : (f.units a : ℚ) < f.units b := by
    exact_mod_cast f.units_strictMono hab
  exact mul_lt_mul_of_pos_right hunits f.leastUnit_pos

theorem magnitudeValue_zero : f.magnitudeValue 0 = 0 := by
  rw [magnitudeValue, f.units_subnormal (Nat.two_pow_pos _), Nat.cast_zero, zero_mul]

theorem magnitudeValue_nonneg (a : Nat) : 0 ≤ f.magnitudeValue a :=
  mul_nonneg (Nat.cast_nonneg _) f.leastUnit_pos.le

theorem abs_signedUnits (p : Nat) : |f.signedUnits p| = f.units (f.magnitude p) := by
  unfold signedUnits
  split
  · rw [abs_neg, Nat.abs_cast]
  · exact Nat.abs_cast _

theorem abs_value (p : Nat) : |f.value p| = f.magnitudeValue (f.magnitude p) := by
  have habs : |(f.signedUnits p : ℚ)| = f.units (f.magnitude p) := by
    exact_mod_cast f.abs_signedUnits p
  rw [value, abs_mul, habs, abs_of_pos f.leastUnit_pos, magnitudeValue]

theorem value_ne_zero_iff {p : Nat} : f.value p ≠ 0 ↔ f.magnitude p ≠ 0 := by
  have hzero : f.value p = 0 ↔ f.magnitudeValue (f.magnitude p) = f.magnitudeValue 0 := by
    rw [← abs_eq_zero, f.abs_value, f.magnitudeValue_zero]
  rw [ne_eq, ne_eq, hzero, f.magnitudeValue_strictMono.injective.eq_iff]

theorem eq_of_value_eq {p q : Nat} (hp : p < 2 * f.signWeight) (hq : q < 2 * f.signWeight)
    (hsign : f.negative p = f.negative q) (hvalue : f.value p = f.value q) : p = q := by
  have hmagnitude : f.magnitudeValue (f.magnitude p) = f.magnitudeValue (f.magnitude q) := by
    rw [← f.abs_value, ← f.abs_value, hvalue]
  rw [← pattern_negative_magnitude hp, ← pattern_negative_magnitude hq, hsign,
    f.magnitudeValue_strictMono.injective hmagnitude]

end BinaryFormat

end Moth.Lib

/-!
## The exact remainder of two floating-point numbers

The remainder of a division that truncates toward zero is a number of the
format, whatever the exponents are: both operands are whole numbers of least
subnormals, and so is what one leaves of the other. It keeps the sign of the
dividend, also when it is zero.
-/

namespace Moth.Lib.BinaryFormat

variable (f : BinaryFormat)

/-- `r` is what `left` leaves on division by `right`. -/
structure IsRemainder (left right r : Nat) : Prop where
  finite : f.IsFinite r
  sign : f.negative r = f.negative left
  exact : f.value left = truncate (f.value left / f.value right) * f.value right + f.value r
  small : |f.value r| < |f.value right|

variable {f} {left right : Nat}

theorem value_div (left right : Nat) :
    f.value left / f.value right = (f.signedUnits left : ℚ) / f.signedUnits right :=
  mul_div_mul_right _ _ f.leastUnit_pos.ne'

theorem signedUnits_ne_zero (hright : f.magnitude right ≠ 0) : f.signedUnits right ≠ 0 := by
  intro hzero
  have hvalue := f.value_ne_zero_iff.2 hright
  rw [value, hzero, Int.cast_zero, zero_mul] at hvalue
  exact hvalue rfl

theorem signedUnits_pattern {s : Bool} {a : Nat} (ha : a < f.signWeight) :
    f.signedUnits (f.pattern s a) = if s then -(f.units a : ℤ) else f.units a := by
  rw [signedUnits, negative_pattern ha, magnitude_pattern ha]

theorem signedUnits_tmod (left right : Nat) :
    (f.signedUnits left).tmod (f.signedUnits right) =
      if f.negative left then
        -((f.units (f.magnitude left) % f.units (f.magnitude right) : Nat) : ℤ)
      else (f.units (f.magnitude left) % f.units (f.magnitude right) : Nat) := by
  have hright : ∀ n : ℤ, n.tmod (f.signedUnits right) = n.tmod (f.units (f.magnitude right)) := by
    intro n
    unfold signedUnits
    split
    · exact Int.tmod_neg _ _
    · rfl
  rw [hright, signedUnits]
  split
  · rw [Int.neg_tmod, Int.ofNat_tmod]
  · rw [Int.ofNat_tmod]

variable (f) in
/-- A magnitude that counts the remainder of the counts, under the sign of the
dividend, is the remainder. -/
theorem isRemainder_of_units {a : Nat} (hleft : f.IsFinite left)
    (hright : f.magnitude right ≠ 0)
    (ha : f.units a = f.units (f.magnitude left) % f.units (f.magnitude right)) :
    f.IsRemainder left right (f.pattern (f.negative left) a) := by
  have hne := signedUnits_ne_zero hright
  have hle : a ≤ f.magnitude left := by
    rw [← f.units_strictMono.le_iff_le, ha]
    exact Nat.mod_le _ _
  have hlt : a < f.infinity := Nat.lt_of_le_of_lt hle hleft
  have hweight : a < f.signWeight := Nat.lt_trans hlt f.infinity_lt_signWeight
  have hr : f.signedUnits (f.pattern (f.negative left) a) =
      (f.signedUnits left).tmod (f.signedUnits right) := by
    rw [signedUnits_pattern hweight, signedUnits_tmod, ha]
  refine ⟨?_, negative_pattern hweight, ?_, ?_⟩
  · rw [IsFinite, magnitude_pattern hweight]
    exact hlt
  · have hsplit : f.signedUnits left =
        (f.signedUnits left).tdiv (f.signedUnits right) * f.signedUnits right +
          (f.signedUnits left).tmod (f.signedUnits right) := (Int.tdiv_mul_add_tmod _ _).symm
    have hcast : (f.signedUnits left : ℚ) =
        ((f.signedUnits left).tdiv (f.signedUnits right) : ℤ) * f.signedUnits right +
          ((f.signedUnits left).tmod (f.signedUnits right) : ℤ) := by
      exact_mod_cast hsplit
    rw [value_div, truncate_div hne, value, value, value, hr]
    linear_combination f.leastUnit * hcast
  · rw [f.abs_value, f.abs_value, magnitude_pattern hweight]
    apply f.magnitudeValue_strictMono
    rw [← f.units_strictMono.lt_iff_lt, ha]
    apply Nat.mod_lt
    have habs := f.abs_signedUnits right
    have hpos : 0 < |f.signedUnits right| := abs_pos.2 hne
    omega

theorem IsRemainder.unique {r r' : Nat} (h : f.IsRemainder left right r)
    (h' : f.IsRemainder left right r') (hr : r < 2 * f.signWeight)
    (hr' : r' < 2 * f.signWeight) : r' = r := by
  apply f.eq_of_value_eq hr' hr (h'.sign.trans h.sign.symm)
  have hexact := h.exact
  have hexact' := h'.exact
  linarith

end Moth.Lib.BinaryFormat
