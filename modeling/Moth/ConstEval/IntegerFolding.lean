import Moth.Datatypes.NumericScalar

/-!
# Folding integer operations

The checked integer operations of `ast/const_eval/mod.rs`: one integer
operation is folded exactly in `i128` and its result checked against the range
of the operation's domain, so every fixed integer type shares one set of
rules.

Operands are values of the domain, and so far inside `i128`; an `i128`
operation of the source that can overflow is the exact one followed by
`checkedI128`.
-/

namespace Moth.ConstEval

open Moth.Lexical Moth.Datatypes

inductive CompileTimeEvaluationErrorReason where
  | DivideByZero
  | InvalidExponent
  | IntegerOverflow
  | DecExponentIntegerOverflow
deriving DecidableEq

inductive ConstantFoldError where
  | diagnostic (reason : CompileTimeEvaluationErrorReason)
  | infrastructure (message : String)
deriving DecidableEq

/-- Shared failure context of one fold attempt. -/
structure NumericFoldFailure where
  /-- Whether the failure happened inside the exponent operand of a `Dec` power. -/
  insideDecPowerExponent : Bool

def integerOverflowError (ctx : NumericFoldFailure) : ConstantFoldError :=
  .diagnostic (if ctx.insideDecPowerExponent then .DecExponentIntegerOverflow
    else .IntegerOverflow)

/-- Exact exponentiation, absent where the power does not fit `i128`. -/
def checkedPow (base : Int) (exponent : Nat) : Option Int :=
  checkedI128 (base ^ exponent)

/-- The `i128` result of an operation, absent where it overflows. -/
def exactIntBinary (lhs rhs : Int) (operator : NumericOperator) (ctx : NumericFoldFailure) :
    Except ConstantFoldError (Option Int) :=
  match operator with
  | .Add => .ok (checkedI128 (lhs + rhs))
  | .Subtract => .ok (checkedI128 (lhs - rhs))
  | .Multiply => .ok (checkedI128 (lhs * rhs))
  | .IntegerDivide =>
      if rhs = 0 then .error (.diagnostic .DivideByZero)
      else .ok (checkedI128 (lhs.tdiv rhs))
  | .Remainder =>
      if rhs = 0 then .error (.diagnostic .DivideByZero)
      -- Remainder by -1 is zero even where the paired quotient overflows.
      else if rhs = -1 then .ok (some 0)
      else .ok (checkedI128 (lhs.tmod rhs))
  | .Power =>
      if rhs < 0 then .error (.diagnostic .InvalidExponent)
      -- Trivial bases have exact answers even when the exponent cannot fit u32.
      else if lhs = 0 then .ok (some (if rhs = 0 then 1 else 0))
      else if lhs = 1 then .ok (some 1)
      else if lhs = -1 then .ok (some (if rhs % 2 = 0 then 1 else -1))
      else if rhs ≤ 4294967295 then .ok (checkedPow lhs rhs.toNat)
      else .error (integerOverflowError ctx)
  | .Divide | .Negate =>
      .error (.infrastructure "Integer folding received unsupported numeric operator")

def checkedIntBinaryResult (lhs rhs : Int) (range : Int × Int) (operator : NumericOperator)
    (ctx : NumericFoldFailure) : Except ConstantFoldError Int := do
  match ← exactIntBinary lhs rhs operator ctx with
  | none => .error (integerOverflowError ctx)
  | some value =>
      if range.1 ≤ value ∧ value ≤ range.2 then .ok value else .error (integerOverflowError ctx)

/-- The integer arm of `numeric_negation_payload`. -/
def checkedIntNegation (value : Int) (range : Int × Int) (ctx : NumericFoldFailure) :
    Except ConstantFoldError Int :=
  match checkedI128 (-value) with
  | none => .error (integerOverflowError ctx)
  | some value =>
      if range.1 ≤ value ∧ value ≤ range.2 then .ok value else .error (integerOverflowError ctx)

end Moth.ConstEval
