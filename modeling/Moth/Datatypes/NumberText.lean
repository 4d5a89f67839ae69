import Moth.Datatypes.Number
import Moth.Lexical.Numeric

/-!
# Exact decimal values and their text

The text half of `datatypes/number.rs` and the adapter of
`numeric_text/parse.rs`. `fromNormalized` shifts the decimal point by
appending or removing zero digits and never builds a power of ten; `display`
pads and inserts the point by string length; `rescale` multiplies or divides
the coefficient.
-/

namespace Moth.Datatypes

open Moth.Lexical

/-- One failure to materialize an exact `Dec` literal. -/
inductive NumberMaterializationError where
  | InexactScale
  | Capacity
deriving DecidableEq

/-- `BigInt::from_str` on a digit string: only a nonempty run of digits reads. -/
def parseCoefficient (digits : List Char) : Except NumberMaterializationError Int :=
  if digits ≠ [] ∧ digits.all Char.isDigit then .ok (Nat.ofDigitChars 10 digits 0)
  else .error .Capacity

/-- `ok_or(Capacity)` on a checked host-size computation. -/
def orCapacity {α : Type} : Option α → Except NumberMaterializationError α
  | some value => .ok value
  | none => .error .Capacity

/-- How far the point moves right and left: the scale and the exponent against
the fraction length, kept apart so that neither goes below zero. -/
def decimalShifts (host : Host) (scale exponentMagnitude fractionLength : Nat)
    (negativeExponent : Bool) : Except NumberMaterializationError (Nat × Nat) := do
  let positiveShift ←
    if negativeExponent then .ok scale
    else orCapacity (host.checkedAdd scale exponentMagnitude)
  let negativeShift ←
    if negativeExponent then orCapacity (host.checkedAdd fractionLength exponentMagnitude)
    else .ok fractionLength
  .ok (positiveShift, negativeShift)

/-- The digits kept of a coefficient, with the zeros that shift it left. -/
def expandDigits (integerPart fractionalPart : List Char)
    (retainedDigitCount appendedZeroes : Nat) : List Char :=
  let integerDigitCount := min integerPart.length retainedDigitCount
  integerPart.take integerDigitCount ++
    (if retainedDigitCount > integerPart.length then
      fractionalPart.take (retainedDigitCount - integerPart.length) else []) ++
    List.replicate appendedZeroes '0'

/-- The shifted coefficient, expanded into a digit buffer unless the integer
digits already spell it. -/
def expandCoefficient (host : Host) (integerPart fractionalPart : List Char)
    (trailingZeroes appendedZeroes removedZeroes : Nat) :
    Except NumberMaterializationError Int := do
  let coefficientDigitCount ←
    orCapacity (host.checkedAdd integerPart.length fractionalPart.length)
  if removedZeroes > trailingZeroes then .error .InexactScale
  else
    let retainedDigitCount ←
      orCapacity (if removedZeroes ≤ coefficientDigitCount then
        some (coefficientDigitCount - removedZeroes) else none)
    let expandedDigitCount ← orCapacity (host.checkedAdd retainedDigitCount appendedZeroes)
    if fractionalPart = [] ∧ appendedZeroes = 0 ∧ removedZeroes = 0 then
      parseCoefficient integerPart
    else if host.tryReserveExact expandedDigitCount then
      parseCoefficient
        (expandDigits integerPart fractionalPart retainedDigitCount appendedZeroes)
    else .error .Capacity

def applySign (sign : NumericLiteralSign) (coefficient : Int) : Int :=
  match sign with
  | .Positive => coefficient
  | .Negative => -coefficient

namespace NumberValue

/-- Materialize normalized numeric text exactly at the requested scale. -/
def fromNormalized (host : Host) (normalized : List Char) (sign : NumericLiteralSign)
    (scale : NumberScale) : Except NumberMaterializationError NumberValue := do
  let facts := NormalizedDecimalFacts.analyze host normalized
  if facts.coefficientIsZero then .ok ⟨0, scale⟩
  else if facts.effectiveScale host > scale.get then .error .InexactScale
  else
    let exponentMagnitude ← orCapacity facts.exponentMagnitude
    let (positiveShift, negativeShift) ← decimalShifts host scale.get exponentMagnitude
      facts.fractionalPart.length facts.negativeExponent
    let coefficient ← expandCoefficient host facts.integerPart facts.fractionalPart
      facts.trailingZeroes (positiveShift - negativeShift) (negativeShift - positiveShift)
    .ok ⟨applySign sign coefficient, scale⟩

/-- Convert this value exactly to another canonical scale. -/
def rescale (self : NumberValue) (target : NumberScale) :
    Except NumberMaterializationError NumberValue :=
  if target = self.scale then .ok self
  else if self.coefficient = 0 then .ok ⟨self.coefficient, target⟩
  else if target.get > self.scale.get then
    .ok ⟨self.coefficient * 10 ^ (target.get - self.scale.get), target⟩
  else
    let divisor : Int := 10 ^ (self.scale.get - target.get)
    let coefficient := self.coefficient.tdiv divisor
    let remainder := self.coefficient.tmod divisor
    if remainder ≠ 0 then .error .InexactScale else .ok ⟨coefficient, target⟩

/-- The loop that drops trailing zero digits of the fraction, from the end. -/
def fractionalEnd (digits : List Char) (integerDigitCount : Nat) : Nat → Nat
  | 0 => 0
  | last + 1 =>
      if last + 1 > integerDigitCount ∧ digits[last]? = some '0' then
        fractionalEnd digits integerDigitCount last
      else last + 1

/-- The digits of a magnitude with the decimal point put in. -/
def displayUnsigned (digits : List Char) (scale : Nat) : List Char :=
  let integerDigitCount := digits.length - scale
  let fractionalEnd := fractionalEnd digits integerDigitCount digits.length
  (if integerDigitCount = 0 then ['0'] else digits.take integerDigitCount) ++
    (if fractionalEnd > integerDigitCount then
      '.' :: (List.replicate (scale - digits.length) '0' ++
        (digits.take fractionalEnd).drop integerDigitCount)
    else [])

/-- The `Display` text of a value. -/
def display (self : NumberValue) : List Char :=
  let digits := Nat.toDigits 10 self.coefficient.natAbs
  let minus := if self.coefficient < 0 then ['-'] else []
  if self.scale.get = 0 then minus ++ digits
  else if self.coefficient = 0 then ['0']
  else minus ++ displayUnsigned digits self.scale.get

end NumberValue

def materializeNormalizedNumber (host : Host) (normalized : List Char) (sign : NumericLiteralSign)
    (scale : NumberScale) : Except NumberLiteralErrorReason NumberValue :=
  match NumberValue.fromNormalized host normalized sign scale with
  | .ok value => .ok value
  | .error .InexactScale => .error (.InexactNumberScale scale)
  | .error .Capacity => .error .ParseOverflow

/-- The sign and the unsigned rest of a numeric text. -/
def splitSign (source : List Char) :
    Except NumberLiteralErrorReason (NumericLiteralSign × List Char) :=
  match source with
  | [] => .error .InvalidSeparatorPlacement
  | '-' :: rest =>
      if rest = [] then .error .InvalidSeparatorPlacement else .ok (.Negative, rest)
  | '+' :: _ => .error .InvalidSeparatorPlacement
  | source => .ok (.Positive, source)

/-- Parse signed numeric text into an exact value at the requested scale. -/
def parseNumericTextToNumber (host : Host) (source : List Char) (scale : NumberScale) :
    Except NumberLiteralErrorReason NumberValue := do
  let (sign, unsigned) ← splitSign source
  let parsed ← parseNumericLiteral unsigned
  materializeNormalizedNumber host parsed.normalizedText sign scale

end Moth.Datatypes
