import Moth.Lexical.Decimal
import Moth.Lexical.FixedScalar

/-!
# Numeric text

The grammar predicates of `numeric/grammar.rs` and the parser of
`numeric/parse.rs`. A literal is unsigned: digits, an optional fraction, an
optional exponent, with `_` allowed between two digits of one run and dropped
from the normalized text. The three digit loops of the original are one loop,
`scanDigitRun`, started each time with both flags down.
-/

namespace Moth.Lexical

inductive NumericLiteralKind where
  | WholeNumber
  | DecimalPoint
  | Exponent
deriving DecidableEq

inductive NumericLiteralSign where
  | Positive
  | Negative
deriving DecidableEq

inductive NumericExponentSign where
  | None
  | Positive
  | Negative
deriving DecidableEq

inductive NumberLiteralErrorReason where
  | SeparatorNotBetweenDigits
  | MultipleDecimalPoints
  | DecimalPointNotAfterDigit
  | EndsWithSeparator
  | MissingFractionalDigits
  | UppercaseExponentMarker
  | MissingExponentDigits
  | InvalidExponentSignPlacement
  | InvalidSeparatorPlacement
  | OutsideFixedScalarRange (scalar : FixedScalar)
  | NegativeUnsignedLiteral (scalar : FixedScalar)
  | NonFiniteFixedFloat (scalar : FixedScalar)
  | InexactNumberScale (scale : NumberScale)
  | ParseOverflow
deriving DecidableEq

def isNumericDigit (character : Char) : Bool := character.isDigit

def isDigitSeparator (character : Char) : Bool := character == '_'

/-- The UTF-8 length of a text. -/
def byteLength (text : List Char) : Nat := (text.map Char.utf8Size).sum

structure ParsedNumericLiteral where
  normalizedText : List Char
  kind : NumericLiteralKind
  digitCount : Nat
  fractionalDigitCount : Nat
  exponentDigitCount : Nat
  exponentSign : NumericExponentSign
deriving DecidableEq

/-- The largest input length whose digit counts fit `u32`. -/
def numericInputMax : Nat := 2 ^ 32 - 1

def checkNumericInputLength (length : Nat) : Except NumberLiteralErrorReason Unit :=
  if length ≤ numericInputMax then .ok () else .error .ParseOverflow

/-- What a digit loop pushed, its two flags at the end, and where it stopped. -/
structure DigitRun where
  digits : List Char
  lastWasDigit : Bool
  lastWasSeparator : Bool
  rest : List Char

def scanDigitRun (lastWasDigit lastWasSeparator : Bool) :
    List Char → Except NumberLiteralErrorReason DigitRun
  | [] => .ok ⟨[], lastWasDigit, lastWasSeparator, []⟩
  | character :: rest =>
      if isNumericDigit character then
        match scanDigitRun true false rest with
        | .ok run => .ok { run with digits := character :: run.digits }
        | .error reason => .error reason
      else if isDigitSeparator character then
        if !lastWasDigit then .error .InvalidSeparatorPlacement
        else if lastWasSeparator then .error .InvalidSeparatorPlacement
        else scanDigitRun false true rest
      else .ok ⟨[], lastWasDigit, lastWasSeparator, character :: rest⟩

/-- A digit run must not end in a separator. -/
def checkRunEnd (run : DigitRun) : Except NumberLiteralErrorReason Unit :=
  if run.lastWasSeparator then
    if run.rest ≠ [] then .error .InvalidSeparatorPlacement else .error .EndsWithSeparator
  else .ok ()

/-- The digits after a decimal point, if there is one, and what follows. -/
def scanFraction (run : DigitRun) :
    Except NumberLiteralErrorReason (Option (List Char) × List Char) :=
  match run.rest with
  | '.' :: rest =>
      if !run.lastWasDigit then .error .DecimalPointNotAfterDigit
      else do
        let fraction ← scanDigitRun false false rest
        checkRunEnd fraction
        if fraction.digits = [] then .error .MissingFractionalDigits
        else .ok (some fraction.digits, fraction.rest)
  | rest => .ok (none, rest)

def scanExponentSign : List Char → NumericExponentSign × List Char
  | '+' :: rest => (.Positive, rest)
  | '-' :: rest => (.Negative, rest)
  | rest => (.None, rest)

/-- The sign and digits of an exponent, if there is one, and what follows. -/
def scanExponent (text : List Char) :
    Except NumberLiteralErrorReason
      (Option (NumericExponentSign × List Char) × List Char) :=
  match text with
  | 'E' :: _ => .error .UppercaseExponentMarker
  | 'e' :: rest => do
      let (sign, rest) := scanExponentSign rest
      let exponent ← scanDigitRun false false rest
      checkRunEnd exponent
      if exponent.digits = [] then .error .MissingExponentDigits
      else .ok (some (sign, exponent.digits), exponent.rest)
  | rest => .ok (none, rest)

def exponentSignText : NumericExponentSign → List Char
  | .None => []
  | .Positive => ['+']
  | .Negative => ['-']

def fractionText : Option (List Char) → List Char
  | none => []
  | some digits => '.' :: digits

def exponentText : Option (NumericExponentSign × List Char) → List Char
  | none => []
  | some (sign, digits) => 'e' :: (exponentSignText sign ++ digits)

/-- Parse an unsigned numeric literal that makes up the whole of `source`. -/
def parseNumericLiteral (source : List Char) :
    Except NumberLiteralErrorReason ParsedNumericLiteral := do
  checkNumericInputLength (byteLength source)
  let integer ← scanDigitRun false false source
  if integer.digits = [] then .error .InvalidSeparatorPlacement
  else
    checkRunEnd integer
    let (fraction, rest) ← scanFraction integer
    let (exponent, rest) ← scanExponent rest
    if rest ≠ [] then .error .InvalidSeparatorPlacement
    else
      let fractionalDigits := (fraction.getD []).length
      let exponentDigits := ((exponent.map Prod.snd).getD []).length
      .ok {
        normalizedText := integer.digits ++ fractionText fraction ++ exponentText exponent
        kind :=
          if exponentDigits > 0 then .Exponent
          else if fraction.isSome then .DecimalPoint
          else .WholeNumber
        digitCount := integer.digits.length + fractionalDigits + exponentDigits
        fractionalDigitCount := fractionalDigits
        exponentDigitCount := exponentDigits
        exponentSign := ((exponent.map Prod.fst).getD .None) }

end Moth.Lexical
