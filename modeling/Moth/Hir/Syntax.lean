import Moth.Datatypes.Number

/-!
# The high-level intermediate representation

The data model of `hir/`: expression rows in one store, statements, block
terminators, blocks and functions. Ids are the source's newtypes. Source
spans and rendered names are left out: no analysis reads them.

A row refers to its children by id, and a side range (`HirValueRange` and its
relatives) is the list it resolves to. The store answers for every id, since
validation has already rejected an id without a row, and validation has also
rejected a cyclic expression graph: a store here carries a rank that falls
from a row to each of its children, which is what recursion over expressions
descends on.
-/

namespace Moth.Hir

open Moth.Lexical Moth.Datatypes

structure HirNodeId where
  index : Nat
deriving DecidableEq

structure HirValueId where
  index : Nat
deriving DecidableEq

structure BlockId where
  index : Nat
deriving DecidableEq

structure LocalId where
  index : Nat
deriving DecidableEq

structure FieldId where
  index : Nat
deriving DecidableEq

structure StructId where
  index : Nat
deriving DecidableEq

structure ChoiceId where
  index : Nat
deriving DecidableEq

structure FunctionId where
  index : Nat
deriving DecidableEq

structure RegionId where
  index : Nat
deriving DecidableEq

/-! ## Places and expressions -/

/-- One root-outward place projection. -/
inductive HirProjection where
  | Field (field : FieldId)
  | Index (value : HirValueId)
deriving DecidableEq

structure HirPlace where
  root : LocalId
  projections : List HirProjection
deriving DecidableEq

/-- Index values of a place's projection chain, root to leaf. -/
def HirPlace.indexValues (place : HirPlace) : List HirValueId :=
  place.projections.filterMap fun projection =>
    match projection with
    | .Index value => some value
    | .Field _ => none

inductive ValueKind where
  | Place
  | RValue
  | Const
deriving DecidableEq

inductive HirVariantCarrier where
  | Choice (choiceId : ChoiceId)
  | Option
deriving DecidableEq

inductive HirBinOp where
  | StringAppend | Eq | Ne | Lt | Le | Gt | Ge | And | Or
deriving DecidableEq

inductive HirUnaryOp where
  | Neg | Not
deriving DecidableEq

inductive HirMapOp where
  | Get | Contains | Set | Remove | Clear | Length
deriving DecidableEq

/-- Whether the operation mutates the receiver map. -/
def HirMapOp.requiresMutableReceiver : HirMapOp → Bool
  | .Set | .Remove | .Clear => true
  | .Get | .Contains | .Length => false

/-- The resolved builtin conversion of a cast. -/
inductive BuiltinCastPolicyId where
  | NumericConversion (source target : NumericScalar)
  | ByteToU8
  | U8ToByte
  | NumericToString (source : NumericScalar)
  | StringToNumeric (target : NumericScalar)
  | BoolToString
  | CharToString
  | CharToInt
  | StringToError
  | ErrorToString
  | IntToChar
  | StringToBool
  | StringToChar
deriving DecidableEq

inductive HirExpressionKind where
  | FixedScalar (value : FixedScalarValue)
  | Number (value : NumberValue)
  | Bool (value : Bool)
  | Char (value : Char)
  | StringLiteral (value : String)
  | StructuralString
  | Load (place : HirPlace)
  | Copy (place : HirPlace)
  | BinOp (left : HirValueId) (op : HirBinOp) (right : HirValueId)
  | UnaryOp (op : HirUnaryOp) (operand : HirValueId)
  | StructConstruct (structId : StructId) (fields : List (FieldId × HirValueId))
  | Collection (values : List HirValueId)
  | Range (first last : HirValueId)
  | Cast (source : HirValueId) (policy : BuiltinCastPolicyId)
  | VariantConstruct (carrier : HirVariantCarrier) (variantIndex : Nat) (fields : List HirValueId)
  | RouteConstruct (choiceId : ChoiceId) (variantIndex : Nat) (fields : List HirValueId)
      (futureInput : Bool)
  | VariantPayloadGet (carrier : HirVariantCarrier) (source : HirValueId)
      (variantIndex fieldIndex : Nat)
  | MapLiteral (entries : List (HirValueId × HirValueId))
deriving DecidableEq

structure HirExpression where
  kind : HirExpressionKind
  ty : TypeId
  valueKind : ValueKind
deriving DecidableEq

/-- What a row of this kind evaluates, in source order. -/
def HirExpressionKind.childValues : HirExpressionKind → List HirValueId
  | .FixedScalar _ | .Number _ | .Bool _ | .Char _ | .StringLiteral _ | .StructuralString => []
  | .Load place | .Copy place => place.indexValues
  | .BinOp left _ right => [left, right]
  | .Range first last => [first, last]
  | .UnaryOp _ operand => [operand]
  | .Cast source _ => [source]
  | .VariantPayloadGet _ source _ _ => [source]
  | .StructConstruct _ fields => fields.map Prod.snd
  | .Collection values => values
  | .VariantConstruct _ _ fields => fields
  | .RouteConstruct _ _ fields _ => fields
  | .MapLiteral entries => entries.flatMap fun entry => [entry.1, entry.2]

/-- The module's expression rows, acyclic by the rank. -/
structure HirExpressionStore where
  expression : HirValueId → HirExpression
  rank : HirValueId → Nat
  rank_child : ∀ id, ∀ child ∈ (expression id).kind.childValues, rank child < rank id

def HirExpressionStore.childValues (store : HirExpressionStore) (id : HirValueId) :
    List HirValueId :=
  (store.expression id).kind.childValues

/-! ## Statements -/

/-- The binding event of an operation that writes a local result. -/
inductive HirLocalDestination where
  | Define (target : LocalId)
  | Update (target : LocalId)
deriving DecidableEq

def HirLocalDestination.localId : HirLocalDestination → LocalId
  | .Define target => target
  | .Update target => target

inductive HirWriteTarget where
  | DefineLocal (target : LocalId)
  | AssignPlace (place : HirPlace)
deriving DecidableEq

inductive CallTarget where
  | Local (function : FunctionId)
  | CrossModule (origin : Nat)
  | ModulePrivate (origin : Nat)
  | Generated (identity : Nat)
  | External (function : Nat)
deriving DecidableEq

inductive NumericFailureMode where
  | Trap
  | Infallible
deriving DecidableEq

inductive LoopStepFailureCause where
  | ZeroStep
  | NoProgress
deriving DecidableEq

/-- A backend-neutral operator with its canonical domain. -/
structure HirNumericOp where
  operator : NumericOperator
  domain : NumericScalar
deriving DecidableEq

inductive HirNumericOperands where
  | Unary (operand : HirValueId)
  | Binary (left right : HirValueId)
deriving DecidableEq

inductive HirStatementKind where
  | Write (target : HirWriteTarget) (value : HirValueId)
  | Call (target : CallTarget) (args : List HirValueId) (results : List HirLocalDestination)
  | Expr (value : HirValueId)
  | PushRuntimeFragment (vecLocal : LocalId) (value : HirValueId)
  | MapOp (op : HirMapOp) (receiver : HirValueId) (args : List HirValueId)
      (result : Option HirLocalDestination)
  | NumericOp (op : HirNumericOp) (failureMode : NumericFailureMode)
      (operands : HirNumericOperands) (result : HirLocalDestination)
  | LoopStepFailure (cause : LoopStepFailureCause) (failureMode : NumericFailureMode)
      (result : HirLocalDestination)
  | RangeCandidate (current step last : HirValueId) (inclusive : Bool) (domain : NumericScalar)
      (candidateResult inRangeResult : HirLocalDestination)
  | FormatFloat (source : HirValueId) (failureMode : NumericFailureMode)
      (result : HirLocalDestination)
  | ValidateFloat (source : HirValueId) (failureMode : NumericFailureMode)
      (result : HirLocalDestination)
deriving DecidableEq

structure HirStatement where
  id : HirNodeId
  kind : HirStatementKind
deriving DecidableEq

/-! ## Terminators -/

inductive HirRelationalPatternOp where
  | LessThan | LessThanOrEqual | GreaterThan | GreaterThanOrEqual
deriving DecidableEq

inductive HirPattern where
  | Literal (value : HirValueId)
  | OptionNone
  | OptionValue (value : HirValueId)
  | OptionRelational (op : HirRelationalPatternOp) (value : HirValueId)
  | OptionPresent
  | Wildcard
  | Relational (op : HirRelationalPatternOp) (value : HirValueId)
  | ChoiceVariant (choiceId : ChoiceId) (variantIndex : Nat)
deriving DecidableEq

/-- The single expression a pattern compares against, if it has one. -/
def HirPattern.value : HirPattern → Option HirValueId
  | .Literal value | .OptionValue value => some value
  | .OptionRelational _ value | .Relational _ value => some value
  | .OptionNone | .OptionPresent | .Wildcard | .ChoiceVariant _ _ => none

structure HirMatchArm where
  pattern : HirPattern
  guard : Option HirValueId
  body : BlockId
deriving DecidableEq

inductive HirFallibleOperation where
  | Call (target : CallTarget) (args : List HirValueId)
  | CastOp (policy : BuiltinCastPolicyId) (source : HirValueId)
  | MapOp (op : HirMapOp) (receiver : HirValueId) (args : List HirValueId)
  | NumericOp (op : HirNumericOp) (operands : HirNumericOperands)
  | LoopStepFailure (cause : LoopStepFailureCause)
  | FormatFloat (source : HirValueId)
  | ValidateFloat (source : HirValueId)
deriving DecidableEq

def HirNumericOperands.values : HirNumericOperands → List HirValueId
  | .Unary operand => [operand]
  | .Binary left right => [left, right]

/-- The evaluated inputs of a fallible operation, in evaluation order. -/
def HirFallibleOperation.operands : HirFallibleOperation → List HirValueId
  | .Call _ args => args
  | .MapOp _ receiver args => receiver :: args
  | .CastOp _ source => [source]
  | .FormatFloat source => [source]
  | .ValidateFloat source => [source]
  | .NumericOp _ operands => operands.values
  | .LoopStepFailure _ => []

/-- One local value transferred across an edge into a newly defined destination. -/
structure HirJumpArgument where
  source : LocalId
  destination : LocalId
deriving DecidableEq

inductive RuntimeFailureCause where
  | StoreConversion (error : LocalId)
  | AuthoredCastConversion (error : LocalId)
deriving DecidableEq

inductive HirTerminator where
  | Jump (target : BlockId) (args : List HirJumpArgument)
  | If (condition : HirValueId) (thenBlock elseBlock : BlockId)
  | Invoke (id : HirNodeId) (operation : HirFallibleOperation) (success : BlockId)
      (successResults : List LocalId) (failure : BlockId) (errorResult : LocalId)
  | Match (scrutinee : HirValueId) (arms : List HirMatchArm)
  | Break (target : BlockId)
  | Continue (target : BlockId)
  | Return (values : List HirValueId)
  | ReturnError (value : HirValueId)
  | Uninitialized
  | RuntimeFailure (cause : Option RuntimeFailureCause)
  | AssertFailure (message : HirValueId)
deriving DecidableEq

/-! ## Blocks, functions and modules -/

structure HirLocal where
  id : LocalId
  ty : TypeId
  isMutable : Bool
  region : RegionId
deriving DecidableEq

structure HirRegion where
  id : RegionId
  parent : Option RegionId
deriving DecidableEq

structure HirBlock where
  id : BlockId
  region : RegionId
  locals : List HirLocal
  statements : List HirStatement
  terminator : HirTerminator
deriving DecidableEq

structure HirFunction where
  id : FunctionId
  entry : BlockId
  params : List LocalId
  returns : List TypeId
  errorReturn : Option TypeId
deriving DecidableEq

/-- Where a local came from; a local without a record has none. -/
inductive HirLocalOriginKind where
  | User
  | CompilerTemp
  | CompilerFreshMutableArg
deriving DecidableEq

structure HirModule where
  expressions : HirExpressionStore
  blocks : List HirBlock
  functions : List HirFunction
  regions : List HirRegion
  localOriginKind : LocalId → Option HirLocalOriginKind

/-- The operation ids of one block: its statements, then its `Invoke`. -/
def HirBlock.nodeIds (block : HirBlock) : List HirNodeId :=
  block.statements.map (fun statement => statement.id) ++
    match block.terminator with
    | .Invoke id _ _ _ _ _ => [id]
    | _ => []

end Moth.Hir
