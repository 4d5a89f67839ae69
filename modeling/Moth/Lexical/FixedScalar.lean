import Mathlib.Data.BitVec

/-!
# Fixed-width scalars

`numeric/fixed_scalar.rs`: the identities of the fixed-width builtin scalars,
their ranges, and the 64-bit carrier of one value. A signed value is stored
sign-extended, an unsigned one zero-extended, and a binary float by the bits
of the `f64` that equals it.
-/

namespace Moth.Lexical

/-- One fixed-width builtin scalar or the `Byte` octet type. -/
inductive FixedScalar where
  | I8 | I16 | I32 | I64
  | U8 | U16 | U32 | U64
  | F16 | F32 | F64
  | Byte
deriving DecidableEq

inductive FixedScalarClass where
  | SignedInteger
  | UnsignedInteger
  | BinaryFloat
  | Octet
deriving DecidableEq

inductive BinaryFloatPrecision where
  | Binary16
  | Binary32
  | Binary64
deriving DecidableEq

namespace FixedScalar

def scalarClass : FixedScalar → FixedScalarClass
  | .I8 | .I16 | .I32 | .I64 => .SignedInteger
  | .U8 | .U16 | .U32 | .U64 => .UnsignedInteger
  | .F16 | .F32 | .F64 => .BinaryFloat
  | .Byte => .Octet

def binaryFloatPrecision : FixedScalar → Option BinaryFloatPrecision
  | .F16 => some .Binary16
  | .F32 => some .Binary32
  | .F64 => some .Binary64
  | _ => none

def bitWidth : FixedScalar → Nat
  | .I8 | .U8 | .Byte => 8
  | .I16 | .U16 | .F16 => 16
  | .I32 | .U32 | .F32 => 32
  | .I64 | .U64 | .F64 => 64

/-- Inclusive `(min, max)` for signed integers. -/
def signedRange (scalar : FixedScalar) : Option (Int × Int) :=
  match scalar.scalarClass with
  | .SignedInteger =>
      let shift := scalar.bitWidth - 1
      some (-(2 ^ 63) / 2 ^ (63 - shift), (2 ^ 63 - 1) / 2 ^ (63 - shift))
  | _ => none

/-- Inclusive maximum for unsigned integers and `Byte`. -/
def unsignedMax (scalar : FixedScalar) : Option Nat :=
  match scalar.scalarClass with
  | .UnsignedInteger | .Octet => some ((2 ^ 64 - 1) / 2 ^ (64 - scalar.bitWidth))
  | _ => none

end FixedScalar

/-- One materialised value: the scalar identity and its 64-bit payload. -/
structure FixedScalarValue where
  scalar : FixedScalar
  bits : BitVec 64
deriving DecidableEq

namespace FixedScalarValue

def asI64 (value : FixedScalarValue) : Option Int :=
  if value.scalar.scalarClass = .SignedInteger then some value.bits.toInt else none

def asU64 (value : FixedScalarValue) : Option Nat :=
  match value.scalar.scalarClass with
  | .UnsignedInteger | .Octet => some value.bits.toNat
  | _ => none

end FixedScalarValue

end Moth.Lexical
