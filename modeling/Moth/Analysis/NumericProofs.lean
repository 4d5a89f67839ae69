import Mathlib.Data.Finset.Insert
import Moth.Hir.Syntax

/-!
# The numeric proof table

`analysis/numeric_proofs/mod.rs`: an optional side table of checked integer
operations, and of fallible integer narrowings, that can never fail. Blocks
are walked one by one; the only state carried between the statements of a
block is the interval of the last written local, and every statement that is
not a direct write or a proven operation drops it.

The analyser's environment and expression store are parameters of its
methods; the two fields that a visit changes are the record `BlockAnalyser`.
Endpoint arithmetic on `i128` is `checkedI128`.
-/

namespace Moth.Analysis

open Moth.Lexical Moth.Datatypes Moth.Hir

/-- Inclusive closed integer interval. -/
abbrev Interval := Int × Int

/-- The two sets of operation ids whose checks may be dropped. -/
structure NumericProofs where
  safeOperations : Finset HirNodeId
  safeNarrowings : Finset HirNodeId
deriving DecidableEq

namespace NumericProofs

def default : NumericProofs := ⟨∅, ∅⟩

def integerOperationIsSafe (self : NumericProofs) (statement : HirNodeId) : Bool :=
  statement ∈ self.safeOperations

def integerNarrowingIsSafe (self : NumericProofs) (statement : HirNodeId) : Bool :=
  statement ∈ self.safeNarrowings

end NumericProofs

/-- The single last-written-local interval. -/
abbrev IntervalCache := Option (LocalId × Interval)

structure BlockAnalyser where
  cache : IntervalCache
  facts : NumericProofs
deriving DecidableEq

/-- The exact integer of a fixed scalar literal, if its class has one. -/
def literalInteger (value : FixedScalarValue) : Option Int :=
  match value.asI64 with
  | some signed => some signed
  | none => value.asU64.map fun unsigned => (unsigned : Int)

/-! ## Interval arithmetic -/

/-- The two nested endpoint loops: extend `(i128::MAX, i128::MIN)` by the result at each
corner, giving up where one does not fit. -/
def cornerInterval (combine : Int → Int → Option Int) (left right : Interval) :
    Option Interval :=
  [(left.1, right.1), (left.1, right.2), (left.2, right.1), (left.2, right.2)].foldlM
    (fun (bounds : Interval) (corner : Int × Int) => do
      let result ← combine corner.1 corner.2
      return (min bounds.1 result, max bounds.2 result))
    (2 ^ 127 - 1, -(2 ^ 127))

def checkedMul (x y : Int) : Option Int := checkedI128 (x * y)

def checkedDiv (x y : Int) : Option Int := if y = 0 then none else checkedI128 (x.tdiv y)

/-- The result interval of one binary operator, before the domain check. -/
def binaryResult (operator : NumericOperator) (domain left right : Interval) :
    Option Interval :=
  match operator with
  | .Add => do
      let low ← checkedI128 (left.1 + right.1)
      let high ← checkedI128 (left.2 + right.2)
      return (low, high)
  | .Subtract => do
      let low ← checkedI128 (left.1 - right.2)
      let high ← checkedI128 (left.2 - right.1)
      return (low, high)
  | .Multiply => cornerInterval checkedMul left right
  | .IntegerDivide =>
      if right.1 ≤ 0 ∧ 0 ≤ right.2 then none
      -- signed minimum divided by -1 overflows the domain
      else if domain.1 < 0 ∧ left.1 ≤ domain.1 ∧ domain.1 ≤ left.2 ∧
          right.1 ≤ -1 ∧ -1 ≤ right.2 then none
      else cornerInterval checkedDiv left right
  | .Remainder =>
      if right.1 ≤ 0 ∧ 0 ≤ right.2 then none
      else do
        let bound ← checkedI128 (max |right.1| |right.2| - 1)
        if 0 ≤ left.1 then return (0, bound)
        else if left.2 ≤ 0 then return (-bound, 0)
        else return (-bound, bound)
  | .Negate | .Divide | .Power => none

/-- The result interval of negation, before the domain check. -/
def negateResult (operand : Interval) : Option Interval := do
  let low ← checkedI128 (-operand.2)
  let high ← checkedI128 (-operand.1)
  return (low, high)

/-! ## The block walk -/

section Walk

variable (environment : TypeEnvironment) (expressions : HirExpressionStore)

/-- Complete canonical integer range of one local or expression type. -/
def canonicalInterval (typeId : TypeId) : Option Interval :=
  match NumericScalar.fromTypeId typeId environment with
  | some scalar => if scalar.isInteger then scalar.integerRange else none
  | none => none

/-- An unprojected read uses the cache for exactly the local it names. -/
def placeInterval (cache : IntervalCache) (typeId : TypeId) (place : HirPlace) :
    Option Interval :=
  if place.projections = [] then
    match cache with
    | some (cachedLocal, interval) =>
        if cachedLocal = place.root then some interval
        else canonicalInterval environment typeId
    | none => canonicalInterval environment typeId
  else canonicalInterval environment typeId

/-- Closed interval of one expression's runtime value. -/
def expressionInterval (cache : IntervalCache) (id : HirValueId) : Option Interval :=
  match _hkind : (expressions.expression id).kind with
  | .FixedScalar value => (literalInteger value).map fun integer => (integer, integer)
  | .Cast source (.NumericConversion _ target) => do
      let targetRange ← target.integerRange
      let sourceInterval ← expressionInterval cache source
      let low := max sourceInterval.1 targetRange.1
      let high := min sourceInterval.2 targetRange.2
      if low ≤ high then return (low, high) else none
  | .Cast _ _ => none
  | .Load place | .Copy place =>
      placeInterval environment cache (expressions.expression id).ty place
  | _ => canonicalInterval environment (expressions.expression id).ty
termination_by expressions.rank id
decreasing_by
  exact expressions.rank_child id source (by simp [_hkind, HirExpressionKind.childValues])

/-- The operator match of `proveOperation`: the result interval before the domain check. -/
def operationInterval (cache : IntervalCache) (op : HirNumericOp) (domain : Interval)
    (operands : HirNumericOperands) : Option Interval :=
  match op.operator, operands with
  | .Negate, .Unary operand =>
      if negationDomain op.domain ≠ some op.domain then none
      else do
        let operandInterval ← expressionInterval environment expressions cache operand
        negateResult operandInterval
  | .Negate, .Binary _ _ => none
  | _, .Unary _ => none
  | operator, .Binary left right => do
      let leftInterval ← expressionInterval environment expressions cache left
      let rightInterval ← expressionInterval environment expressions cache right
      binaryResult operator domain leftInterval rightInterval

/-- Proves one checked numeric operation safe, returning its result interval. -/
def proveOperation (cache : IntervalCache) (op : HirNumericOp) (operands : HirNumericOperands) :
    Option Interval := do
  let domain ← op.domain.integerRange
  if op.domain.isInteger = false then none
  else
    let interval ← operationInterval environment expressions cache op domain operands
    if domain.1 ≤ interval.1 ∧ interval.2 ≤ domain.2 then return interval else none

/-- Whether one fallible integer-to-integer conversion can never fail. -/
def castNarrowingIsProvable (policy : BuiltinCastPolicyId) (sourceInterval : Interval) : Bool :=
  match policy with
  | .NumericConversion source target =>
      if source.isInteger = false ∨ target.isInteger = false then false
      else
        match target.integerRange with
        | some targetRange =>
            decide (targetRange.1 ≤ sourceInterval.1 ∧ sourceInterval.2 ≤ targetRange.2)
        | none => false
  | _ => false

end Walk

/-- The local a write replaces whole; `none` for a projected place. -/
def directLocal : HirWriteTarget → Option LocalId
  | .DefineLocal target => some target
  | .AssignPlace place => if place.projections = [] then some place.root else none

namespace BlockAnalyser

variable (environment : TypeEnvironment) (expressions : HirExpressionStore)

def visitStatement (self : BlockAnalyser) (statement : HirStatement) : BlockAnalyser :=
  match statement.kind with
  | .Write target value =>
      -- the source interval is derived before any invalidation
      let interval := expressionInterval environment expressions self.cache value
      match directLocal target with
      | some targetLocal => { self with cache := interval.map fun i => (targetLocal, i) }
      | none => { self with cache := none }
  | .NumericOp op _ operands result =>
      match proveOperation environment expressions self.cache op operands with
      | some resultInterval =>
          { cache := some (result.localId, resultInterval)
            facts := { self.facts with
              safeOperations := insert statement.id self.facts.safeOperations } }
      | none => { self with cache := none }
  | _ => { self with cache := none }

def visitTerminator (self : BlockAnalyser) (terminator : HirTerminator) : BlockAnalyser :=
  match terminator with
  | .Invoke id (.NumericOp op operands) _ _ _ _ =>
      if (proveOperation environment expressions self.cache op operands).isSome then
        { cache := none
          facts := { self.facts with safeOperations := insert id self.facts.safeOperations } }
      else { self with cache := none }
  | .Invoke id (.CastOp policy source) _ _ _ _ =>
      match expressionInterval environment expressions self.cache source with
      | some interval =>
          if castNarrowingIsProvable policy interval then
            { cache := none
              facts := { self.facts with safeNarrowings := insert id self.facts.safeNarrowings } }
          else { self with cache := none }
      | none => { self with cache := none }
  | .Invoke _ _ _ _ _ _ => { self with cache := none }
  | _ => self

/-- The statements of a block, from the state it is entered with. -/
def visitStatements (self : BlockAnalyser) (statements : List HirStatement) : BlockAnalyser :=
  statements.foldl (visitStatement environment expressions) self

/-- One block: value-specific state resets at its entry. -/
def visitBlock (self : BlockAnalyser) (block : HirBlock) : BlockAnalyser :=
  let entered := { self with cache := none }
  let walked := entered.visitStatements environment expressions block.statements
  walked.visitTerminator environment expressions block.terminator

end BlockAnalyser

/-- The interval cache after the given statements of a block. -/
def cacheAfter (environment : TypeEnvironment) (expressions : HirExpressionStore)
    (statements : List HirStatement) : IntervalCache :=
  (BlockAnalyser.visitStatements environment expressions ⟨none, NumericProofs.default⟩
    statements).cache

/-- The conservative proof table of one validated module. -/
def analyseNumericProofs (hir : HirModule) (environment : TypeEnvironment) : NumericProofs :=
  (hir.blocks.foldl (BlockAnalyser.visitBlock environment hir.expressions)
    ⟨none, NumericProofs.default⟩).facts

end Moth.Analysis
