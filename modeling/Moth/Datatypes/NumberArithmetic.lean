import Mathlib.Tactic.Positivity
import Moth.Lib.HalfEven
import Moth.Datatypes.Number

/-!
# `Dec` arithmetic rounds once, half to even

The rounding helper answers the nearest integer of the exact quotient, which
is the whole of multiplication and division: both hand it the exact rational
product or quotient at the result's scale. Power is the long one. Each of its
shortcuts has to land where the general path would, and they do so for three
reasons: on an integral base, unity included, the exact power is an integer at
the scale, so rounding changes nothing; zero stays zero; and a coefficient of
magnitude one is at most a tenth, whose higher powers are closer to zero than
half a unit of the last place.

`scaledTo` is the specification side: a rational at a scale, rounded once.
-/

namespace Moth.Datatypes

open Moth.Lexical Moth.Lib

/-- The coefficient of the exact rational `q` at `scale`, rounded once. -/
def scaledTo (scale : NumberScale) (q : ℚ) : ℤ := roundHalfEven (q * 10 ^ scale.get)

/-! ## The helpers -/

theorem decimalScaleFactor_cast (scale : NumberScale) :
    ((decimalScaleFactor scale : ℤ) : ℚ) = 10 ^ scale.get := by
  simp [decimalScaleFactor]

theorem decimalScaleFactor_pos (scale : NumberScale) : 0 < decimalScaleFactor scale := by
  unfold decimalScaleFactor
  positivity

theorem decimalScaleFactor_zero : decimalScaleFactor .ZERO = 1 := by
  simp [decimalScaleFactor, NumberScale.ZERO]

theorem ten_le_decimalScaleFactor {scale : NumberScale} (h : scale ≠ .ZERO) :
    10 ≤ decimalScaleFactor scale := by
  have hpos : scale.get ≠ 0 := fun h0 => h (NumberScale.eq_zero_iff.2 h0)
  obtain ⟨k, hk⟩ := Nat.exists_eq_succ_of_ne_zero hpos
  have hone : (0 : ℤ) < 10 ^ k := by positivity
  rw [decimalScaleFactor, hk, pow_succ]
  omega

theorem bigintPowerLoop_eq (power : Nat) (factor result : Int) :
    bigintPowerLoop power factor result = result * factor ^ power := by
  induction power using Nat.strong_induction_on generalizing factor result with
  | _ power ih =>
      rw [bigintPowerLoop]
      split
      · next h0 => simp [h0]
      · next h0 =>
          have hsplit : factor ^ power = factor ^ (power % 2) * (factor * factor) ^ (power / 2) := by
            rw [← sq, ← pow_mul, ← pow_add, Nat.mod_add_div]
          have hhalf : power / 2 < power := by omega
          simp only
          rw [ih _ hhalf, hsplit]
          rcases Nat.mod_two_eq_zero_or_one power with hbit | hbit
          · rcases Nat.eq_zero_or_pos (power / 2) with hrest | hrest
            · simp [hbit, hrest]
            · simp [hbit, hrest.ne']
          · rcases Nat.eq_zero_or_pos (power / 2) with hrest | hrest
            · simp [hbit, hrest]
            · simp [hbit, hrest.ne', mul_assoc]

theorem bigintPower_eq (base : Int) (exponent : Nat) : bigintPower base exponent = base ^ exponent := by
  rw [bigintPower, bigintPowerLoop_eq, one_mul]

/-- The rounding helper answers the nearest integer of the exact quotient. -/
theorem roundRationalHalfEven_eq {n d : ℤ} (hd : d ≠ 0) :
    roundRationalHalfEven n d = roundHalfEven ((n : ℚ) / d) := by
  refine IsNearestEven.eq_roundHalfEven ?_
  unfold roundRationalHalfEven
  split
  · next hunit =>
      rcases Int.natAbs_eq_iff.1 hunit with rfl | rfl
      · simpa using IsNearestEven.of_intCast (K := ℚ) n
      · simpa [div_neg] using IsNearestEven.of_intCast (K := ℚ) (-n)
  · simp only
    split
    · next hexact =>
        refine isNearestEven_tdiv_of_lt hd ?_
        rw [hexact]
        have := Int.natAbs_pos.2 hd
        omega
    · next hr =>
        split
        · next hcmp =>
            rw [Nat.compare_eq_lt] at hcmp
            exact isNearestEven_tdiv_of_lt hd (by omega)
        · next hcmp =>
            rw [Nat.compare_eq_eq] at hcmp
            split
            · next heven =>
                exact isNearestEven_tdiv_of_eq hd (by omega) (Int.even_iff.2 heven)
            · next hodd =>
                exact isNearestEven_correct hd (by omega) fun _ h => hodd (Int.even_iff.1 h)
        · next hcmp =>
            rw [Nat.compare_eq_gt] at hcmp
            exact isNearestEven_correct hd (by omega) fun h => by omega

/-! ## Values at one scale -/

namespace NumberValue

theorem coefficient_cast (v : NumberValue) :
    (v.coefficient : ℚ) = v.toRat * 10 ^ v.scale.get := by
  unfold toRat
  field_simp

theorem toRat_mk (c : ℤ) (scale : NumberScale) :
    (NumberValue.mk c scale).toRat = c / 10 ^ scale.get := rfl

theorem toRat_eq_zero_iff {v : NumberValue} : v.toRat = 0 ↔ v.coefficient = 0 := by
  unfold toRat
  simp

theorem toRat_div {a b : NumberValue} (h : a.scale = b.scale) :
    a.toRat / b.toRat = (a.coefficient : ℚ) / b.coefficient := by
  unfold toRat
  rw [h]
  have hscale : (10 : ℚ) ^ b.scale.get ≠ 0 := by positivity
  rw [div_div_div_cancel_right₀ hscale]

end NumberValue

/-! ## The binary operators -/

namespace NumberValue

variable {a b : NumberValue}

theorem checkedBinary_add (h : a.scale = b.scale) :
    ∃ r, a.checkedBinary .Add b = .ok r ∧ r.scale = a.scale ∧ r.toRat = a.toRat + b.toRat := by
  refine ⟨⟨a.coefficient + b.coefficient, a.scale⟩, by simp [checkedBinary, h], rfl, ?_⟩
  unfold toRat
  push_cast
  rw [add_div, h]

theorem checkedBinary_subtract (h : a.scale = b.scale) :
    ∃ r, a.checkedBinary .Subtract b = .ok r ∧ r.scale = a.scale ∧
      r.toRat = a.toRat - b.toRat := by
  refine ⟨⟨a.coefficient - b.coefficient, a.scale⟩, by simp [checkedBinary, h], rfl, ?_⟩
  unfold toRat
  push_cast
  rw [sub_div, h]

theorem checkedBinary_multiply (h : a.scale = b.scale) :
    a.checkedBinary .Multiply b = .ok ⟨scaledTo a.scale (a.toRat * b.toRat), a.scale⟩ := by
  have hexact : a.toRat * b.toRat * 10 ^ a.scale.get =
      ((a.coefficient * b.coefficient : ℤ) : ℚ) / (decimalScaleFactor a.scale : ℤ) := by
    rw [decimalScaleFactor_cast]
    unfold toRat
    rw [← h]
    push_cast
    field_simp
  have hunit := (decimalScaleFactor_pos a.scale).ne'
  unfold checkedBinary
  rw [if_neg (not_not.2 h)]
  simp only
  rw [scaledTo, hexact]
  split
  · next hzero =>
      rw [hzero, decimalScaleFactor_zero, Int.cast_one, div_one, roundHalfEven_intCast]
  · rw [roundRationalHalfEven_eq hunit]

theorem checkedBinary_divide (h : a.scale = b.scale) :
    a.checkedBinary .Divide b =
      if a.scale = .ZERO then .error .InvalidOperation
      else if b.coefficient = 0 then .error .DivideByZero
      else .ok ⟨scaledTo a.scale (a.toRat / b.toRat), a.scale⟩ := by
  unfold checkedBinary
  rw [if_neg (not_not.2 h)]
  simp only
  split
  · rfl
  · split
    · rfl
    · next hb =>
        have hexact : a.toRat / b.toRat * 10 ^ a.scale.get =
            ((a.coefficient * decimalScaleFactor a.scale : ℤ) : ℚ) / b.coefficient := by
          rw [toRat_div h, Int.cast_mul, decimalScaleFactor_cast, div_mul_eq_mul_div]
        rw [roundRationalHalfEven_eq hb, scaledTo, hexact]

theorem checkedBinary_remainder (h : a.scale = b.scale) (hb : b.coefficient ≠ 0) :
    ∃ r, a.checkedBinary .Remainder b = .ok r ∧ r.scale = a.scale ∧
      truncate (a.toRat / b.toRat) * b.toRat + r.toRat = a.toRat := by
  refine ⟨⟨a.coefficient.tmod b.coefficient, a.scale⟩, by simp [checkedBinary, h, hb], rfl, ?_⟩
  rw [toRat_div h, truncate_div hb]
  unfold toRat
  rw [h, mul_div_assoc', ← add_div]
  congr 1
  exact_mod_cast Int.tdiv_mul_add_tmod a.coefficient b.coefficient

theorem checkedBinary_integerDivide (h : a.scale = b.scale) (hzero : a.scale = .ZERO)
    (hb : b.coefficient ≠ 0) :
    ∃ q, a.checkedBinary .IntegerDivide b = .ok q ∧ q.scale = a.scale ∧
      q.toRat = truncate (a.toRat / b.toRat) := by
  refine ⟨⟨a.coefficient.tdiv b.coefficient, a.scale⟩, ?_, rfl, ?_⟩
  · simp [checkedBinary, ← h, hzero, hb]
  · rw [toRat_div h, truncate_div hb, toRat_mk, NumberScale.eq_zero_iff.1 hzero, pow_zero, div_one]

/-! ## Power -/

variable {v : NumberValue} {e : ℤ}

theorem power_scaled (v : NumberValue) (k : ℕ) :
    v.toRat ^ (k + 1) * 10 ^ v.scale.get =
      ((v.coefficient ^ (k + 1) : ℤ) : ℚ) / ((decimalScaleFactor v.scale ^ k : ℤ) : ℚ) := by
  unfold toRat
  rw [div_pow, Int.cast_pow, Int.cast_pow, decimalScaleFactor_cast]
  field_simp
  ring

theorem scaledTo_pow_of_integral {q : ℤ} (hdvd : v.coefficient = q * decimalScaleFactor v.scale) (k : ℕ) :
    scaledTo v.scale (v.toRat ^ k) = q ^ k * decimalScaleFactor v.scale := by
  have hvalue : v.toRat = (q : ℚ) := by
    unfold toRat
    rw [hdvd, Int.cast_mul, decimalScaleFactor_cast]
    field_simp
  have hint : v.toRat ^ k * 10 ^ v.scale.get =
      ((q ^ k * decimalScaleFactor v.scale : ℤ) : ℚ) := by
    rw [hvalue, Int.cast_mul, Int.cast_pow, decimalScaleFactor_cast]
  rw [scaledTo, hint, roundHalfEven_intCast]

/-- A base of magnitude one unit of the last place: every square underflows. -/
theorem scaledTo_pow_of_unit (hscale : v.scale ≠ .ZERO) (hunit : v.coefficient.natAbs = 1)
    (k : ℕ) : scaledTo v.scale (v.toRat ^ (k + 2)) = 0 := by
  have hten : (10 : ℚ) ≤ (decimalScaleFactor v.scale : ℤ) := by
    exact_mod_cast ten_le_decimalScaleFactor hscale
  have hcoef : |((v.coefficient ^ (k + 2) : ℤ) : ℚ)| = 1 := by
    have habs : |v.coefficient| = 1 := by
      rw [Int.abs_eq_natAbs, hunit, Nat.cast_one]
    rw [← Int.cast_abs, abs_pow, habs, one_pow, Int.cast_one]
  have hpow : (10 : ℚ) ≤ ((decimalScaleFactor v.scale ^ (k + 1) : ℤ) : ℚ) := by
    rw [Int.cast_pow]
    calc (10 : ℚ) ≤ (decimalScaleFactor v.scale : ℤ) := hten
      _ ≤ ((decimalScaleFactor v.scale : ℤ) : ℚ) ^ (k + 1) :=
          le_self_pow₀ (by linarith) (by omega)
  refine roundHalfEven_eq_zero ?_
  rw [power_scaled v (k + 1), abs_div, hcoef, abs_of_pos (by linarith)]
  rw [div_lt_div_iff₀ (by linarith) (by norm_num)]
  linarith

theorem checkedPower_eq (he : 0 ≤ e) :
    v.checkedPower e = .ok ⟨scaledTo v.scale (v.toRat ^ e.toNat), v.scale⟩ := by
  have hfactor := decimalScaleFactor_pos v.scale
  obtain ⟨k, rfl⟩ := Int.eq_ofNat_of_zero_le he
  have hself : v.coefficient = scaledTo v.scale v.toRat := by
    rw [scaledTo, ← coefficient_cast, roundHalfEven_intCast]
  simp only [Int.toNat_natCast]
  unfold checkedPower
  simp only
  rw [if_neg (by omega)]
  split
  · next h0 =>
      have hk : k = 0 := by omega
      subst hk
      rw [pow_zero, scaledTo, one_mul, ← decimalScaleFactor_cast, roundHalfEven_intCast]
  · next h0 =>
      split
      · next h1 =>
          rcases h1 with h1 | hzero
          · have hk : k = 1 := by omega
            subst hk
            rw [pow_one, ← hself]
          · have hv : v.toRat = 0 := toRat_eq_zero_iff.2 hzero
            rw [hv, zero_pow (by omega), ← hv, ← hself]
      · next h1 =>
          have h2 : 2 ≤ k := by omega
          split
          · next hone =>
              have hint := scaledTo_pow_of_integral (q := 1) (v := v) (by rw [hone, one_mul]) k
              rw [hint, one_pow, one_mul, ← hone]
          · split
            · next hminus =>
                have hneg : v.coefficient = -1 * decimalScaleFactor v.scale := by
                  have hlt := Int.sign_eq_neg_one_iff_neg.1 hminus.1
                  omega
                rw [scaledTo_pow_of_integral hneg]
                split
                · next hodd =>
                    rw [Odd.neg_one_pow (Nat.odd_iff.2 (by omega)), ← hneg]
                · next heven =>
                    rw [Even.neg_one_pow (Nat.even_iff.2 (by omega)), one_mul]
            · split
              · next hzero =>
                  have hint : v.coefficient = v.coefficient * decimalScaleFactor v.scale := by
                    rw [hzero, decimalScaleFactor_zero, mul_one]
                  rw [scaledTo_pow_of_integral hint, bigintPower_eq, hzero,
                    decimalScaleFactor_zero, mul_one]
                  rfl
              · next hscale =>
                  split
                  · next hunit =>
                      obtain ⟨j, rfl⟩ := Nat.exists_eq_add_of_le' h2
                      rw [scaledTo_pow_of_unit hscale hunit]
                  · simp only [bigintPower_eq, Int.toNat_natCast]
                    split
                    · next hdvd =>
                        have hint : v.coefficient =
                            v.coefficient.tdiv (decimalScaleFactor v.scale) *
                              decimalScaleFactor v.scale := by
                          have := Int.tdiv_mul_add_tmod v.coefficient (decimalScaleFactor v.scale)
                          omega
                        rw [scaledTo_pow_of_integral hint]
                    · obtain ⟨j, rfl⟩ := Nat.exists_eq_add_of_le' (Nat.one_le_of_lt h2)
                      rw [roundRationalHalfEven_eq (pow_ne_zero _ hfactor.ne'), scaledTo,
                        power_scaled, Nat.add_sub_cancel]

/-! ## The operators together -/

/-- What each operator answers on two values of one scale: exact, or the exact
rational rounded once, outside the operand shapes the operator refuses. -/
theorem checked_arithmetic (h : a.scale = b.scale) :
    (∃ r, a.checkedBinary .Add b = .ok r ∧ r.scale = a.scale ∧ r.toRat = a.toRat + b.toRat) ∧
    (∃ r, a.checkedBinary .Subtract b = .ok r ∧ r.scale = a.scale ∧
      r.toRat = a.toRat - b.toRat) ∧
    a.checkedBinary .Multiply b = .ok ⟨scaledTo a.scale (a.toRat * b.toRat), a.scale⟩ ∧
    a.checkedBinary .Divide b =
      (if a.scale = .ZERO then .error .InvalidOperation
      else if b.coefficient = 0 then .error .DivideByZero
      else .ok ⟨scaledTo a.scale (a.toRat / b.toRat), a.scale⟩) ∧
    (b.coefficient = 0 → a.checkedBinary .Remainder b = .error .DivideByZero) ∧
    (b.coefficient ≠ 0 →
      ∃ r, a.checkedBinary .Remainder b = .ok r ∧ r.scale = a.scale ∧
        truncate (a.toRat / b.toRat) * b.toRat + r.toRat = a.toRat) ∧
    (a.scale ≠ .ZERO → a.checkedBinary .IntegerDivide b = .error .InvalidOperation) ∧
    (a.scale = .ZERO → b.coefficient = 0 →
      a.checkedBinary .IntegerDivide b = .error .DivideByZero) ∧
    (a.scale = .ZERO → b.coefficient ≠ 0 →
      ∃ q r, a.checkedBinary .IntegerDivide b = .ok q ∧ a.checkedBinary .Remainder b = .ok r ∧
        q.toRat = truncate (a.toRat / b.toRat) ∧ q.toRat * b.toRat + r.toRat = a.toRat) ∧
    (∀ e : ℤ, 0 ≤ e →
      a.checkedPower e = .ok ⟨scaledTo a.scale (a.toRat ^ e.toNat), a.scale⟩) := by
  refine ⟨checkedBinary_add h, checkedBinary_subtract h, checkedBinary_multiply h,
    checkedBinary_divide h, ?_, checkedBinary_remainder h, ?_, ?_, ?_, fun _ => checkedPower_eq⟩
  · intro hb
    simp [checkedBinary, h, hb]
  · intro hscale
    simp [checkedBinary, ← h, hscale]
  · intro hscale hb
    simp [checkedBinary, ← h, hscale, hb]
  · intro hscale hb
    obtain ⟨q, hq, -, hqv⟩ := checkedBinary_integerDivide h hscale hb
    obtain ⟨r, hr, -, hrv⟩ := checkedBinary_remainder h hb
    exact ⟨q, r, hq, hr, hqv, by rw [hqv]; exact hrv⟩

theorem checked_arithmetic_tenths :
    let a : NumberValue := ⟨7, 1, by omega⟩
    let b : NumberValue := ⟨-3, 1, by omega⟩
    a.checkedBinary .Multiply b = .ok ⟨scaledTo a.scale (a.toRat * b.toRat), a.scale⟩ ∧
      (∃ r, a.checkedBinary .Remainder b = .ok r ∧ r.scale = a.scale ∧
        truncate (a.toRat / b.toRat) * b.toRat + r.toRat = a.toRat) ∧
      a.checkedPower 3 = .ok ⟨scaledTo a.scale (a.toRat ^ 3), a.scale⟩ := by
  have hall := checked_arithmetic (a := ⟨7, 1, by omega⟩) (b := ⟨-3, 1, by omega⟩) rfl
  obtain ⟨-, -, hmul, -, -, hrem, -, -, -, hpow⟩ := hall
  exact ⟨hmul, hrem (by decide), hpow 3 (by decide)⟩

/-- Division has no scale-zero form, and integer division no other: neither is
the rounded or truncated quotient on every pair of one scale. -/
theorem checkedBinary_division_gated :
    (¬ ∀ a b : NumberValue, a.scale = b.scale → b.coefficient ≠ 0 →
      a.checkedBinary .Divide b = .ok ⟨scaledTo a.scale (a.toRat / b.toRat), a.scale⟩) ∧
    (¬ ∀ a b : NumberValue, a.scale = b.scale → b.coefficient ≠ 0 →
      ∃ q r, a.checkedBinary .IntegerDivide b = .ok q ∧ a.checkedBinary .Remainder b = .ok r ∧
        q.toRat * b.toRat + r.toRat = a.toRat) := by
  constructor
  · intro hall
    have hcase := hall ⟨1, .ZERO⟩ ⟨2, .ZERO⟩ rfl (by decide)
    simp [checkedBinary] at hcase
  · intro hall
    obtain ⟨q, r, hq, -, -⟩ := hall ⟨7, 1, by omega⟩ ⟨3, 1, by omega⟩ rfl (by decide)
    simp [checkedBinary, NumberScale.ZERO] at hq

end NumberValue

end Moth.Datatypes
