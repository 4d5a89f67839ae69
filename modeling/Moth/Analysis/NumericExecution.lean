import Moth.Analysis.NumericProofs

/-!
# Running the statements of a block on exact integers

What a numeric proof is a proof of. A machine state is observed through the
integer each local holds and through the value that each expression row not
computed here (a projected read, a payload, a construction) has at the
moment; a value that is no integer is `none`. Literals, unprojected reads and
integer conversions are computed from those.

A statement relates the states before and after it. A direct write gives its
target the value of its source, and a checked integer operation gives its
result local the exact result, when there is one: it has no successor state
otherwise. Either may change other locals too, since a mutable alias writes
through, and every other statement may change anything; all that is kept is
what the language's types promise, that a value stays in the range of its
declared type.

`NumericallyValidated` collects what HIR validation and the constructors of
the rows have established before the analysis runs.
-/

namespace Moth.Analysis

open Moth.Lexical Moth.Datatypes Moth.Hir

/-! ## Checked operations -/

/-- The exact result of a binary operator, absent for a zero divisor. -/
def exactBinary (operator : NumericOperator) (left right : Int) : Option Int :=
  match operator with
  | .Add => some (left + right)
  | .Subtract => some (left - right)
  | .Multiply => some (left * right)
  | .IntegerDivide => if right = 0 then none else some (left.tdiv right)
  | .Remainder => if right = 0 then none else some (left.tmod right)
  | .Negate | .Divide | .Power => none

def Interval.Contains (interval : Interval) (value : Int) : Prop :=
  interval.1 ≤ value ∧ value ≤ interval.2

instance (interval : Interval) (value : Int) : Decidable (Interval.Contains interval value) :=
  inferInstanceAs (Decidable (_ ∧ _))

/-- The result, unless it leaves the operation's domain. -/
def checkDomain (domain : NumericScalar) (result : Int) : Option Int :=
  match domain.integerRange with
  | some range => if Interval.Contains range result then some result else none
  | none => none

/-- The exact result on concrete operand values, absent for a zero divisor. -/
def exactResult (operator : NumericOperator) (operands : HirNumericOperands)
    (value : HirValueId → Option Int) : Option Int :=
  match operator, operands with
  | .Negate, .Unary operand => (value operand).map fun operandValue => -operandValue
  | .Negate, .Binary _ _ => none
  | _, .Unary _ => none
  | operator, .Binary left right => do
      let leftValue ← value left
      let rightValue ← value right
      exactBinary operator leftValue rightValue

/-- The checked operation on concrete operand values; `none` is its failure. -/
def checkedOperation (op : HirNumericOp) (operands : HirNumericOperands)
    (value : HirValueId → Option Int) : Option Int := do
  let result ← exactResult op.operator operands value
  checkDomain op.domain result

/-! ## Machine states -/

structure MachineState where
  locals : LocalId → Option Int
  reads : HirValueId → Option Int

/-- The declared type of a local. -/
def declaredType (hir : HirModule) (target : LocalId) : Option TypeId :=
  ((hir.blocks.flatMap fun block => block.locals).find? fun declared =>
    declared.id = target).map fun declared => declared.ty

/-- A whole local is read from its slot, a projected place from memory. -/
def placeValue (state : MachineState) (id : HirValueId) (place : HirPlace) : Option Int :=
  if place.projections = [] then state.locals place.root else state.reads id

/-- The value of one expression row. -/
def evaluate (expressions : HirExpressionStore) (state : MachineState) (id : HirValueId) :
    Option Int :=
  match _hkind : (expressions.expression id).kind with
  | .FixedScalar value => literalInteger value
  | .Cast source (.NumericConversion _ target) =>
      if target.isInteger then evaluate expressions state source else state.reads id
  | .Load place | .Copy place => placeValue state id place
  | _ => state.reads id
termination_by expressions.rank id
decreasing_by
  exact expressions.rank_child id source (by simp [_hkind, HirExpressionKind.childValues])

theorem evaluate_eq (expressions : HirExpressionStore) (state : MachineState)
    (id : HirValueId) :
    evaluate expressions state id =
      match (expressions.expression id).kind with
      | .FixedScalar value => literalInteger value
      | .Cast source (.NumericConversion _ target) =>
          if target.isInteger then evaluate expressions state source else state.reads id
      | .Load place | .Copy place => placeValue state id place
      | _ => state.reads id := by
  rw [evaluate]
  split <;> simp [*]

/-- A value of an integer type is an integer of that type's range. -/
def InType (environment : TypeEnvironment) (typeId : TypeId) (value : Option Int) : Prop :=
  ∀ range, canonicalInterval environment typeId = some range →
    ∃ integer, value = some integer ∧ Interval.Contains range integer

section Execution

variable (hir : HirModule) (environment : TypeEnvironment)

/-- Every local but one, and every read, is in its type. -/
def TypedAwayFrom (target : Option LocalId) (state : MachineState) : Prop :=
  (∀ other typeId, target ≠ some other → declaredType hir other = some typeId →
    InType environment typeId (state.locals other)) ∧
  ∀ id, InType environment (hir.expressions.expression id).ty (state.reads id)

/-- Every local and every read is in its type. -/
def WellTyped (state : MachineState) : Prop := TypedAwayFrom hir environment none state

/-- One statement, from a state to a state it may leave behind. -/
def StatementStep (statement : HirStatement) (before after : MachineState) : Prop :=
  match statement.kind with
  | .Write target value =>
      match directLocal target with
      | some targetLocal =>
          after.locals targetLocal = evaluate hir.expressions before value ∧
          TypedAwayFrom hir environment (some targetLocal) after
      | none => WellTyped hir environment after
  | .NumericOp op _ operands result =>
      if op.domain.isInteger then
        ∃ value, checkedOperation op operands (evaluate hir.expressions before) = some value ∧
          after.locals result.localId = some value ∧
          TypedAwayFrom hir environment (some result.localId) after
      else WellTyped hir environment after
  | _ => WellTyped hir environment after

/-- The statements of a block in order, from a state to a state. -/
def StatementSteps : List HirStatement → MachineState → MachineState → Prop
  | [], before, after => before = after
  | statement :: rest, before, after =>
      ∃ middle, StatementStep hir environment statement before middle ∧ StatementSteps rest middle after

end Execution

/-- What validation has established about the rows the analysis reads. -/
structure NumericallyValidated (hir : HirModule) (environment : TypeEnvironment) : Prop where
  /-- Operation ids are unique in the module. -/
  nodeIds : (hir.blocks.flatMap HirBlock.nodeIds).Nodup
  /-- A literal's payload is a value of the type of its row. -/
  literal : ∀ id value, (hir.expressions.expression id).kind = .FixedScalar value →
    InType environment (hir.expressions.expression id).ty (literalInteger value)
  /-- The type of an unprojected read is the type of its local. -/
  place : ∀ id place, ((hir.expressions.expression id).kind = .Load place ∨
      (hir.expressions.expression id).kind = .Copy place) → place.projections = [] →
    declaredType hir place.root = some (hir.expressions.expression id).ty
  /-- A conversion's source and row have the policy's types. -/
  castType : ∀ id operand source target, (hir.expressions.expression id).kind =
      .Cast operand (.NumericConversion (.Fixed source) (.Fixed target)) →
    (hir.expressions.expression operand).ty = fixedScalarTypeId source ∧
    (hir.expressions.expression id).ty = fixedScalarTypeId target
  /-- A conversion that is an expression cannot fail: into an integer domain it comes from
  an integer domain that the target contains. -/
  castInfallible : ∀ id operand source target targetRange,
    (hir.expressions.expression id).kind = .Cast operand (.NumericConversion source target) →
    target.integerRange = some targetRange →
    ∃ sourceRange, source.integerRange = some sourceRange ∧
      targetRange.1 ≤ sourceRange.1 ∧ sourceRange.2 ≤ targetRange.2
  /-- A written value has the type of its destination. -/
  write : ∀ block ∈ hir.blocks, ∀ statement ∈ block.statements, ∀ target value targetLocal,
    statement.kind = .Write target value → directLocal target = some targetLocal →
    declaredType hir targetLocal = some (hir.expressions.expression value).ty
  /-- A checked operation's result local has the type of its domain. -/
  numericResult : ∀ block ∈ hir.blocks, ∀ statement ∈ block.statements,
    ∀ operator fixed failureMode operands result,
    statement.kind = .NumericOp ⟨operator, .Fixed fixed⟩ failureMode operands result →
    declaredType hir result.localId = some (fixedScalarTypeId fixed)

end Moth.Analysis
