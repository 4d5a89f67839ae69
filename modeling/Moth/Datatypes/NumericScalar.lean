import Moth.Lexical.Decimal
import Moth.Lexical.FixedScalar

/-!
# Canonical numeric scalars

`datatypes/numeric_scalar.rs` and the operator half of
`datatypes/numeric_operators.rs`: the numeric domains a type can have, the
closed integer range of each bounded one, and the operator vocabulary that a
checked operation combines with a domain.

`i128` values are `Int`, and an operation that the source writes with a
`checked_` method goes through `checkedI128`, which is `none` exactly where
the method is. The type table is read through one lookup only, the builtin
key of a type, so that is all of it that stands here.
-/

namespace Moth.Datatypes

open Moth.Lexical

/-- An `i128` result, or `none` where the exact integer does not fit. -/
def checkedI128 (value : Int) : Option Int :=
  if -(2 ^ 127) ≤ value ∧ value ≤ 2 ^ 127 - 1 then some value else none

theorem checkedI128_eq_some {value result : Int} (h : checkedI128 value = some result) :
    value = result := by
  simp only [checkedI128] at h
  split at h
  · exact Option.some.inj h
  · cases h

structure TypeId where
  index : Nat
deriving DecidableEq

/-- What a builtin type definition is keyed by. -/
inductive BuiltinTypeKey where
  | Bool | String | Char | Range | None
  | FixedScalar (scalar : FixedScalar)
  | Number (scale : NumberScale)
deriving DecidableEq

/-- The seeded type of one fixed scalar, after `Bool`, `String`, `Char`,
`Range` and `None`. -/
def fixedScalarTypeId (scalar : FixedScalar) : TypeId := ⟨5 + scalar.ctorIdx⟩

/-- The type table, with the fixed scalars at their seeded ids. -/
structure TypeEnvironment where
  builtinKey : TypeId → Option BuiltinTypeKey
  fixedScalar_seeded : ∀ scalar, builtinKey (fixedScalarTypeId scalar) = some (.FixedScalar scalar)

namespace TypeEnvironment

def numberScale (environment : TypeEnvironment) (id : TypeId) : Option NumberScale :=
  match environment.builtinKey id with
  | some (.Number scale) => some scale
  | _ => none

def fixedScalar (environment : TypeEnvironment) (id : TypeId) : Option FixedScalar :=
  match environment.builtinKey id with
  | some (.FixedScalar scalar) => some scalar
  | _ => none

@[simp] theorem numberScale_fixedScalarTypeId (environment : TypeEnvironment)
    (scalar : FixedScalar) : environment.numberScale (fixedScalarTypeId scalar) = none := by
  simp [numberScale, environment.fixedScalar_seeded]

@[simp] theorem fixedScalar_fixedScalarTypeId (environment : TypeEnvironment)
    (scalar : FixedScalar) :
    environment.fixedScalar (fixedScalarTypeId scalar) = some scalar := by
  simp [fixedScalar, environment.fixedScalar_seeded]

end TypeEnvironment

/-- One canonical numeric scalar domain. -/
inductive NumericScalar where
  | Fixed (scalar : FixedScalar)
  | Number (scale : NumberScale)
deriving DecidableEq

namespace NumericScalar

/-- The numeric domain of a canonical type, if it is one. -/
def fromTypeId (typeId : TypeId) (environment : TypeEnvironment) : Option NumericScalar :=
  match environment.numberScale typeId with
  | some scale => some (.Number scale)
  | none =>
      match environment.fixedScalar typeId with
      | some scalar => if scalar = .Byte then none else some (.Fixed scalar)
      | none => none

def isInteger : NumericScalar → Bool
  | .Number _ => false
  | .Fixed scalar =>
      match scalar.scalarClass with
      | .SignedInteger | .UnsignedInteger => true
      | .BinaryFloat | .Octet => false

/-- Inclusive value range of an integer domain. -/
def integerRange : NumericScalar → Option (Int × Int)
  | .Number _ => none
  | .Fixed scalar =>
      match scalar.scalarClass with
      | .SignedInteger => scalar.signedRange
      | .UnsignedInteger =>
          match scalar.unsignedMax with
          | some max => some (0, max)
          | none => none
      | .BinaryFloat | .Octet => none

theorem isInteger_of_integerRange {scalar : NumericScalar} {range : Int × Int}
    (h : scalar.integerRange = some range) : scalar.isInteger = true := by
  cases scalar with
  | Number scale => cases h
  | Fixed fixed => cases fixed <;> first | rfl | cases h

theorem integerRange_isSome {scalar : NumericScalar} :
    scalar.integerRange.isSome = scalar.isInteger := by
  cases scalar with
  | Number scale => rfl
  | Fixed fixed => cases fixed <;> rfl

theorem fromTypeId_fixedScalarTypeId (environment : TypeEnvironment) {fixed : FixedScalar}
    (h : (NumericScalar.Fixed fixed).isInteger = true) :
    fromTypeId (fixedScalarTypeId fixed) environment = some (.Fixed fixed) := by
  have hbyte : fixed ≠ .Byte := by
    rintro rfl
    cases h
  simp [fromTypeId, hbyte]

end NumericScalar

/-- One backend-neutral numeric operator. -/
inductive NumericOperator where
  | Add
  | Subtract
  | Multiply
  | Divide
  | IntegerDivide
  | Remainder
  | Power
  | Negate
deriving DecidableEq

/-- `Dec`, signed integers and binary floats keep their own type under unary minus. -/
def negationDomain (operand : NumericScalar) : Option NumericScalar :=
  match operand with
  | .Number _ => some operand
  | .Fixed scalar =>
      match scalar.scalarClass with
      | .SignedInteger | .BinaryFloat => some operand
      | .UnsignedInteger | .Octet => none

end Moth.Datatypes
