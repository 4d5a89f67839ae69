import Mathlib.Data.Rat.Floor
import Mathlib.Algebra.Order.Round
import Mathlib.Algebra.Order.Ring.Rat
import Moth.Datatypes.NumericScalar

/-!
# Exact decimal values

`datatypes/number.rs`: a `Dec` value is an arbitrary-precision coefficient and
a scale, and stands for `coefficient / 10^scale`. The functions here are the
arithmetic half of that file; the conversion from and to text is in
`NumberText.lean`.

`BigInt` is `Int`: its `/`, `%` and `div_rem` truncate toward zero, which is
`Int.tdiv` and `Int.tmod`, and its magnitude is `Int.natAbs`.
-/

namespace Moth.Datatypes

open Moth.Lexical

/-- A checked `Dec` arithmetic failure. -/
inductive NumberArithmeticError where
  | DivideByZero
  | InvalidExponent
  | InvalidOperation
deriving DecidableEq

/-- An immutable coefficient and its canonical scale. -/
structure NumberValue where
  coefficient : Int
  scale : NumberScale
deriving DecidableEq

def decimalScaleFactor (scale : NumberScale) : Int := 10 ^ scale.get

/-- The squaring loop of `bigint_power`, one bit of the exponent at a time. -/
def bigintPowerLoop (power : Nat) (factor result : Int) : Int :=
  if power = 0 then result
  else
    let result := if power % 2 = 1 then result * factor else result
    let power' := power / 2
    let factor := if power' ≠ 0 then factor * factor else factor
    bigintPowerLoop power' factor result
termination_by power
decreasing_by omega

def bigintPower (base : Int) (exponent : Nat) : Int := bigintPowerLoop exponent base 1

/-- Round one exact rational toward the nearest integer, ties to even. -/
def roundRationalHalfEven (numerator denominator : Int) : Int :=
  -- unit denominators are exact and need no quotient/remainder pair
  if denominator.natAbs = 1 then
    if denominator.sign = -1 then -numerator else numerator
  else
    let quotient := numerator.tdiv denominator
    let remainder := numerator.tmod denominator
    if remainder = 0 then quotient
    else
      let away := if numerator.sign = denominator.sign then quotient + 1 else quotient - 1
      match compare (remainder.natAbs * 2) denominator.natAbs with
      | .lt => quotient
      | .eq => if quotient % 2 = 0 then quotient else away
      | .gt => away

namespace NumberValue

/-- The rational a value stands for. -/
def toRat (value : NumberValue) : ℚ := value.coefficient / 10 ^ value.scale.get

/-- One supported non-power binary operation at this scale. -/
def checkedBinary (self : NumberValue) (operator : NumericOperator) (right : NumberValue) :
    Except NumberArithmeticError NumberValue :=
  if self.scale ≠ right.scale then .error .InvalidOperation
  else
    match operator with
    | .Add => .ok ⟨self.coefficient + right.coefficient, self.scale⟩
    | .Subtract => .ok ⟨self.coefficient - right.coefficient, self.scale⟩
    | .Multiply =>
        if self.scale = .ZERO then .ok ⟨self.coefficient * right.coefficient, self.scale⟩
        else .ok ⟨roundRationalHalfEven (self.coefficient * right.coefficient)
          (decimalScaleFactor self.scale), self.scale⟩
    | .Divide =>
        if self.scale = .ZERO then .error .InvalidOperation
        else if right.coefficient = 0 then .error .DivideByZero
        else .ok ⟨roundRationalHalfEven (self.coefficient * decimalScaleFactor self.scale)
          right.coefficient, self.scale⟩
    | .IntegerDivide =>
        if self.scale ≠ .ZERO then .error .InvalidOperation
        else if right.coefficient = 0 then .error .DivideByZero
        else .ok ⟨self.coefficient.tdiv right.coefficient, self.scale⟩
    | .Remainder =>
        if right.coefficient = 0 then .error .DivideByZero
        else .ok ⟨self.coefficient.tmod right.coefficient, self.scale⟩
    | .Power => .error .InvalidOperation
    | .Negate => .error .InvalidOperation

/-- Raise this value to a non-negative exponent, rounding only the result. -/
def checkedPower (self : NumberValue) (exponent : Int) :
    Except NumberArithmeticError NumberValue :=
  let unity := decimalScaleFactor self.scale
  if exponent < 0 then .error .InvalidExponent
  else if exponent = 0 then .ok ⟨unity, self.scale⟩
  else if exponent = 1 ∨ self.coefficient = 0 then .ok self
  else if self.coefficient = unity then .ok self
  else if self.coefficient.sign = -1 ∧ self.coefficient.natAbs = unity.natAbs then
    if exponent % 2 = 1 then .ok self else .ok ⟨unity, self.scale⟩
  else if self.scale = .ZERO then
    .ok ⟨bigintPower self.coefficient exponent.toNat, self.scale⟩
  -- a coefficient of magnitude one is at most a tenth, so every higher power underflows
  else if self.coefficient.natAbs = 1 then .ok ⟨0, self.scale⟩
  else
    let quotient := self.coefficient.tdiv unity
    let remainder := self.coefficient.tmod unity
    -- an integral base divides out the removable scale factor before the power
    if remainder = 0 then
      .ok ⟨bigintPower quotient exponent.toNat * unity, self.scale⟩
    else
      .ok ⟨roundRationalHalfEven (bigintPower self.coefficient exponent.toNat)
        (bigintPower unity (exponent.toNat - 1)), self.scale⟩

end NumberValue

end Moth.Datatypes
