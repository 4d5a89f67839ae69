import Moth.Lib.BinaryRounding
import Moth.Lexical.NormalizedFacts

/-!
# Rounding to binary16

`numeric/binary16.rs`. A magnitude is the bit pattern of a nonnegative `f64`.
An authored decimal is parsed as `f64` and rounded to binary16; where the parse
ends exactly on a midpoint of two neighbours, the authored digits are compared
with that midpoint, so that the decimal is rounded once and not twice.
-/

namespace Moth.Lexical

open Moth.Lib BinaryFormat

/-! ## The standard parser -/

/-- The exponent written after the `e`. -/
def exponentOfText : Option (List Char) → Int
  | none => 0
  | some ('-' :: digits) => -(Nat.ofDigitChars 10 digits 0 : Int)
  | some ('+' :: digits) => Nat.ofDigitChars 10 digits 0
  | some digits => Nat.ofDigitChars 10 digits 0

/-- The number that an unsigned decimal spelling denotes. -/
def decimalValue (text : List Char) : ℚ :=
  let (coefficient, exponent) := NormalizedDecimalFacts.splitExponent text
  let (integerPart, fractionalPart) := NormalizedDecimalFacts.splitPoint coefficient
  Nat.ofDigitChars 10 (integerPart ++ fractionalPart) 0 *
    10 ^ (exponentOfText exponent - fractionalPart.length)

/-- `str::parse` at a binary float: correctly rounded, infinity past the largest finite value. -/
def parseFloat (f : BinaryFormat) (text : List Char) : Nat := f.nearestMagnitude (decimalValue text)

/-! ## Rounding a magnitude -/

/-- The midpoint of two neighbours, `significand * 2 ^ exponent`. -/
structure F16Midpoint where
  below : Nat
  above : Nat
  significand : Nat
  exponent : Int

structure F16MagnitudeRounding where
  value : Nat
  midpoint : Option F16Midpoint

/-- The `f64` for `significand * 2 ^ exponent`. -/
def scalePow2 (significand : Nat) (exponent : Int) : Nat :=
  let highestBit := significand.log2
  let mantissa := significand * 2 ^ (52 - highestBit) % 2 ^ 52
  let biasedExponent := (exponent + highestBit + 1023).toNat
  biasedExponent * 2 ^ 52 + mantissa

def scaledValue (quotient : Nat) (unitExponent : Int) : Nat :=
  if quotient = 0 then 0
  else if 15 < unitExponent + quotient.log2 then binary64.infinity
  else scalePow2 quotient unitExponent

def F16Midpoint.new (truncated : Nat) (unitExponent : Int) : F16Midpoint where
  below := scaledValue truncated unitExponent
  above := scaledValue (truncated + 1) unitExponent
  significand := 2 * truncated + 1
  exponent := unitExponent - 1

/-- The significand and exponent of a finite `f64` magnitude. -/
def significandExponent (magnitude : Nat) : Nat × Int :=
  let rawExponent : Nat := magnitude / 2 ^ 52 % 2 ^ 11
  let fraction := magnitude % 2 ^ 52
  if rawExponent = 0 then (fraction, -1074)
  else (fraction + 2 ^ 52, (rawExponent : Int) - 1023 - 52)

/-- Round a finite magnitude to the nearest binary16 magnitude, ties to even. -/
def roundFiniteMagnitudeToF16 (magnitude : Nat) : F16MagnitudeRounding :=
  if magnitude = 0 then ⟨0, none⟩
  else
    let (significand, exponent) := significandExponent magnitude
    let leadingExponent := exponent + significand.log2
    let unitExponent := max (leadingExponent - 10) (-24)
    let shift := unitExponent - exponent
    if shift ≤ 0 then ⟨scaledValue (significand * 2 ^ (-shift).toNat) unitExponent, none⟩
    else if shift < 64 then
      let truncated := significand / 2 ^ shift.toNat
      let remainder := significand % 2 ^ shift.toNat
      let half := 2 ^ (shift.toNat - 1)
      let roundUp := roundsUp truncated remainder half
      let quotient := if roundUp then truncated + 1 else truncated
      let midpoint :=
        if remainder = half then some (F16Midpoint.new truncated unitExponent) else none
      ⟨scaledValue quotient unitExponent, midpoint⟩
    else ⟨scaledValue 0 unitExponent, none⟩

/-- The bits of an `f64` rounded to binary16, those of an `f64` again. -/
def roundF64ToF16 (value : Nat) : Nat :=
  if binary64.infinity ≤ binary64.magnitude value then value
  else
    binary64.pattern (binary64.negative value)
      (roundFiniteMagnitudeToF16 (binary64.magnitude value)).value

/-! ## Comparing with the authored digits -/

/-- One digit of the exponent, saturating at `i64`. -/
def saturatingDigit (exponent : Nat) (character : Char) : Nat :=
  min (min (exponent * 10) (2 ^ 63 - 1) + (character.toNat - '0'.toNat)) (2 ^ 63 - 1)

def saturatingDigits (digits : List Char) : Nat := digits.foldl saturatingDigit 0

def parseDecimalExponent : List Char → Int
  | '-' :: digits => -(saturatingDigits digits : Int)
  | '+' :: digits => saturatingDigits digits
  | digits => saturatingDigits digits

def dropTrailingZeroes (digits : List Char) : List Char :=
  (digits.reverse.dropWhile (· == '0')).reverse

/-- The significant digits of an unsigned decimal and the power of ten they are scaled by. -/
def decomposeDecimalMagnitude (text : List Char) : List Char × Int :=
  let (mantissa, exponentText) := NormalizedDecimalFacts.splitExponent text
  let explicitExponent := (exponentText.map parseDecimalExponent).getD 0
  let (integerDigits, fractionalDigits) := NormalizedDecimalFacts.splitPoint mantissa
  let digits := (integerDigits ++ fractionalDigits).dropWhile (· == '0')
  let significant := dropTrailingZeroes digits
  (significant,
    explicitExponent - fractionalDigits.length + (digits.length - significant.length : Nat))

/-- The exact decimal expansion of `significand * 2 ^ exponent`. -/
def binaryDecimalExpansion (significand : Nat) (exponent : Int) : Nat × Int :=
  if 0 ≤ exponent then (significand * 2 ^ exponent.toNat, 0)
  else (significand * 5 ^ (-exponent).toNat, exponent)

/-- Digit by digit, the shorter run filled up with zeros. -/
def compareDigits : List Char → List Char → Ordering
  | [], [] => .eq
  | left :: lefts, [] => (compare left.toNat 48).then (compareDigits lefts [])
  | [], right :: rights => (compare 48 right.toNat).then (compareDigits [] rights)
  | left :: lefts, right :: rights =>
      (compare left.toNat right.toNat).then (compareDigits lefts rights)

def compareScaledDecimals (authoredDigits : List Char) (authoredScale : Int) (exactDigits : Nat)
    (exactScale : Int) : Ordering :=
  let exactText := Nat.toDigits 10 exactDigits
  let authoredPosition := authoredScale + authoredDigits.length
  let exactPosition := exactScale + exactText.length
  if authoredPosition ≠ exactPosition then compare authoredPosition exactPosition
  else compareDigits authoredDigits exactText

/-- An authored decimal against `significand * 2 ^ exponent`. -/
def compareDecimalMagnitude (authored : List Char) (significand : Nat) (exponent : Int) :
    Ordering :=
  let (authoredDigits, authoredScale) := decomposeDecimalMagnitude authored
  if authoredDigits = [] then .lt
  else
    let (exactDigits, exactScale) := binaryDecimalExpansion significand exponent
    compareScaledDecimals authoredDigits authoredScale exactDigits exactScale

/-- The rounded magnitude, on a midpoint by the side of it that the authored digits are on. -/
def settleMidpoint (normalized : List Char) (rounding : F16MagnitudeRounding) : Nat :=
  match rounding.midpoint with
  | none => rounding.value
  | some midpoint =>
      match compareDecimalMagnitude normalized midpoint.significand midpoint.exponent with
      | .lt => midpoint.below
      | .gt => midpoint.above
      | .eq => rounding.value

/-- The binary16 value of an unsigned decimal under a sign, as the bits of an `f64`. -/
def decimalToF16 (normalized : List Char) (negative : Bool) : Option Nat :=
  if normalized.head? = some '-' ∨ normalized.head? = some '+' then none
  else
    let parsed := parseFloat binary64 normalized
    if binary64.infinity ≤ parsed then none
    else
      let rounded := settleMidpoint normalized (roundFiniteMagnitudeToF16 parsed)
      if binary64.infinity ≤ rounded then none else some (binary64.pattern negative rounded)

end Moth.Lexical
