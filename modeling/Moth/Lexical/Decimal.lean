import Mathlib.Data.Nat.Notation
import Mathlib.Tactic.Ring

/-!
# Decimal scales and facts of a normalized spelling

`numeric/decimal.rs`. A scale lies in `0..=256`, and the type carries the
bound. `NormalizedDecimalFacts.analyze` splits a normalized spelling into its
digit runs and exponent without expanding anything, and `effectiveScale` is
the number of fractional places the value needs.

Text is a list of characters; the spellings that get here are ASCII, so byte
offsets and character offsets agree. The machine enters through `Host`: the
pointer width decides where `usize` arithmetic saturates or fails, and an
allocation beyond `isize::MAX` bytes is always refused.
-/

namespace Moth.Lexical

/-- One validated canonical `Dec` scale. -/
structure NumberScale where
  get : Nat
  get_le_max : get ≤ 256
deriving DecidableEq

namespace NumberScale

/-- The canonical scale capacity. -/
def MAX : Nat := 256

def ZERO : NumberScale := ⟨0, by omega⟩

theorem eq_zero_iff {scale : NumberScale} : scale = ZERO ↔ scale.get = 0 := by
  cases scale
  simp [ZERO]

end NumberScale

/-- The pointer width of the machine and what its allocator can reserve. -/
structure Host where
  pointerBits : Nat
  le_pointerBits : 16 ≤ pointerBits
  tryReserveExact : Nat → Bool
  reserve_le : ∀ n, tryReserveExact n = true → n ≤ 2 ^ (pointerBits - 1) - 1

namespace Host

def usizeMax (host : Host) : Nat := 2 ^ host.pointerBits - 1

def isizeMax (host : Host) : Nat := 2 ^ (host.pointerBits - 1) - 1

def checkedAdd (host : Host) (a b : Nat) : Option Nat :=
  if a + b ≤ host.usizeMax then some (a + b) else none

def checkedMul (host : Host) (a b : Nat) : Option Nat :=
  if a * b ≤ host.usizeMax then some (a * b) else none

def saturatingAdd (host : Host) (a b : Nat) : Nat := min (a + b) host.usizeMax

theorem isizeMax_add_lt (host : Host) : host.isizeMax + NumberScale.MAX < host.usizeMax := by
  obtain ⟨k, hk⟩ := Nat.exists_eq_add_of_le host.le_pointerBits
  have hpow : 2 ^ 15 ≤ 2 ^ (15 + k) := Nat.pow_le_pow_right (by omega) (by omega)
  have hbits : 16 + k - 1 = 15 + k := by omega
  have hdouble : 2 ^ (16 + k) = 2 * 2 ^ (15 + k) := by ring
  simp only [isizeMax, usizeMax, NumberScale.MAX, hk, hbits, hdouble]
  omega

end Host

/-- Split at the first occurrence of a character, dropping it. -/
def splitOnce (separator : Char) : List Char → Option (List Char × List Char)
  | [] => none
  | c :: rest =>
      if c = separator then some ([], rest)
      else (splitOnce separator rest).map fun (before, after) => (c :: before, after)

/-- Parse an exponent magnitude, or nothing when it exceeds `usize`. -/
def checkedDecimalUsize (host : Host) (value : Nat) : List Char → Option Nat
  | [] => some value
  | c :: rest =>
      match (host.checkedMul value 10).bind (host.checkedAdd · (c.toNat - '0'.toNat)) with
      | some value => checkedDecimalUsize host value rest
      | none => none

/-- The backward scan: trailing zero digits, and whether nothing else was met. -/
def scanTrailingZeroes : List Char → Nat × Bool
  | [] => (0, true)
  | digit :: rest =>
      if digit = '0' then
        let (count, isZero) := scanTrailingZeroes rest
        (count + 1, isZero)
      else (0, false)

structure NormalizedDecimalFacts where
  integerPart : List Char
  fractionalPart : List Char
  trailingZeroes : Nat
  coefficientIsZero : Bool
  exponentMagnitude : Option Nat
  negativeExponent : Bool
deriving DecidableEq

namespace NormalizedDecimalFacts

/-- The exponent magnitude and sign of the text after the `e`. -/
def analyzeExponent (host : Host) : Option (List Char) → Option Nat × Bool
  | none => (some 0, false)
  | some ('+' :: digits) => (checkedDecimalUsize host 0 digits, false)
  | some ('-' :: digits) => (checkedDecimalUsize host 0 digits, true)
  | some digits => (checkedDecimalUsize host 0 digits, false)

/-- The coefficient text, and the text after the `e` if there is one. -/
def splitExponent (normalized : List Char) : List Char × Option (List Char) :=
  match splitOnce 'e' normalized with
  | some (coefficient, exponent) => (coefficient, some exponent)
  | none => (normalized, none)

/-- The digits before the decimal point and those after it. -/
def splitPoint (coefficient : List Char) : List Char × List Char :=
  match splitOnce '.' coefficient with
  | some (integerPart, fractionalPart) => (integerPart, fractionalPart)
  | none => (coefficient, [])

/-- Analyze a grammar-validated normalized spelling. -/
def analyze (host : Host) (normalized : List Char) : NormalizedDecimalFacts :=
  let (coefficient, exponent) := splitExponent normalized
  let (integerPart, fractionalPart) := splitPoint coefficient
  let (trailingZeroes, coefficientIsZero) :=
    scanTrailingZeroes (integerPart ++ fractionalPart).reverse
  if coefficientIsZero then
    -- signed zero ignores its exponent magnitude and sign
    ⟨integerPart, fractionalPart, trailingZeroes, coefficientIsZero, some 0, false⟩
  else
    let (exponentMagnitude, negativeExponent) := analyzeExponent host exponent
    ⟨integerPart, fractionalPart, trailingZeroes, coefficientIsZero, exponentMagnitude,
      negativeExponent⟩

/-- Exact fractional scale after exponent adjustment and trailing-zero removal. -/
def effectiveScale (host : Host) (facts : NormalizedDecimalFacts) : Nat :=
  if facts.coefficientIsZero then 0
  else
    let exponentMagnitude := facts.exponentMagnitude.getD host.usizeMax
    let untrimmedScale :=
      if facts.negativeExponent then
        host.saturatingAdd facts.fractionalPart.length exponentMagnitude
      else facts.fractionalPart.length - exponentMagnitude
    let trailingZeroes := min facts.trailingZeroes untrimmedScale
    untrimmedScale - trailingZeroes

end NormalizedDecimalFacts

end Moth.Lexical
