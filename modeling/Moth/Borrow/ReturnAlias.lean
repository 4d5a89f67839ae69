import Mathlib.Data.List.Sort
import Moth.Borrow.Metadata
import Moth.Hir.Flow

/-!
# Classifying what a function returns

`return_alias.rs`: where the returned values come from. A returned load of a
parameter aliases it; a load of any other local has the provenance of whatever
writes the local, found by looking at every write of it in the reachable
blocks, and so on backwards. A local whose writers are being looked at already
is unknown. A call's result has what the callee's summary says of its
arguments.

The set of locals being looked at is passed down, since the source removes
what it added before it returns. The recursion is over fuel; a local with a
writer is one of finitely many, so that `classificationDepth` is never
exhausted.
-/

/-!
## Public call summaries

The call contract of `public_call_summary.rs` that a caller of a function
sees: how each parameter is accessed, whether its root is written, whether it
may be consumed, and which parameters the result may alias. The borrow checker
builds the summaries of the functions of its own module and reads those of the
other modules and of the generated and external functions, which
`CallEnvironment` gathers.
-/

namespace Moth.Borrow

open Moth.Hir

inductive PublicCallParameterAccess where
  | Shared
  | Mutable
deriving DecidableEq

inductive PublicCallMutationEffect where
  | NoWrite
  | Writes
deriving DecidableEq

inductive PublicCallTransferEffect where
  | MayConsume
  | AlwaysConsumes
deriving DecidableEq

structure PublicCallParameterSummary where
  access : PublicCallParameterAccess
  mutation : PublicCallMutationEffect
  transferEffect : PublicCallTransferEffect
deriving DecidableEq

/-- The parameters that a result may alias; `Fresh` is none of them, `Unknown` any root. -/
inductive FunctionReturnAliasSummary where
  | Fresh
  | AliasParams (indices : List Nat)
  | Unknown
deriving DecidableEq

structure PublicCallSummary where
  parameters : List PublicCallParameterSummary
  returnAlias : FunctionReturnAliasSummary
  escapesBuiltinFailure : Bool
deriving DecidableEq

/-! ## External functions -/

inductive ExternalAccessKind where
  | Shared
  | Mutable
deriving DecidableEq

inductive ExternalReturnAlias where
  | Fresh
  | AliasArgs (indices : List Nat)
deriving DecidableEq

/-- What the borrow checker reads of an external function: its parameters' access and the alias
of each result slot. -/
structure ExternalFunctionDef where
  parameters : List ExternalAccessKind
  returns : List ExternalReturnAlias
deriving DecidableEq

/-- Several results stay unknown: the summary has no slot for each. -/
def ExternalFunctionDef.hirReturnAlias (self : ExternalFunctionDef) :
    FunctionReturnAliasSummary :=
  match self.returns with
  | [] => .Fresh
  | [.Fresh] => .Fresh
  | [.AliasArgs indices] => .AliasParams indices
  | _ => .Unknown

/-- The summaries of callees outside the module. -/
structure CallEnvironment where
  importedCallSummaries : Nat → Option PublicCallSummary
  modulePrivateCallSummaries : Nat → Option PublicCallSummary
  generatedCallSummaries : Nat → Option PublicCallSummary
  externalFunctions : Nat → Option ExternalFunctionDef

/-- The retained summaries of the module's own functions. -/
abbrev SummaryTable : Type := FunctionId → Option PublicCallSummary

/-! ## Errors -/

/-- The internal errors of building, classifying and finalizing call summaries, each with what
its message names. -/
inductive CallSummaryError where
  | UnresolvedBlock (function : FunctionId)
  | DuplicateFunction (function : FunctionId)
  | DuplicateParameter (function : FunctionId) (position : Nat)
  | SharedParameter (parameter : LocalId)
  | UnresolvedMutability (function : FunctionId) (parameter : LocalId)
  | MissingSummary (callee : CallTarget)
  | AliasArgumentOutOfRange (argIndex argCount : Nat)
  | RetainedCount (retained expected : Nat)
  | MissingStatementFacts (function : FunctionId)
  | MissingArgumentFacts (argumentIndex : Nat)
  | MissingReceiverFacts
  | ArgumentOutOfRange (callee : CallTarget) (argumentIndex : Nat)
  | UnstableReturnAlias
  | UnstableMutation
  /-- The classifier recursed deeper than its fuel: not an error of the source. -/
  | DepthExhausted
deriving DecidableEq

/-! ## Alias summaries -/

/-- Sorted, without duplicates. -/
def sortedIndices (indices : List Nat) : List Nat :=
  (indices.insertionSort fun a b => a ≤ b).dedup

/-- `Unknown` dominates, `Fresh` is neutral, indices unite. -/
def mergeReturnAlias : FunctionReturnAliasSummary → FunctionReturnAliasSummary →
    FunctionReturnAliasSummary
  | .Unknown, _ | _, .Unknown => .Unknown
  | .Fresh, other | other, .Fresh => other
  | .AliasParams left, .AliasParams right => .AliasParams (sortedIndices (left ++ right))

end Moth.Borrow

namespace Moth.Borrow

open Moth.Hir

/-- One write of a local, by where the written value comes from. -/
inductive AliasWriter where
  | Expression (value : HirValueId)
  | CallResult (target : CallTarget) (args : List HirValueId)
  | MapResult (op : HirMapOp) (receiver : HirValueId)
  | Computed
  | Transport (source : LocalId)
deriving DecidableEq

/-- The local that a write replaces whole; a projected place has none. -/
def wholeWriteLocal : HirWriteTarget → Option LocalId
  | .DefineLocal target => some target
  | .AssignPlace place => if place.projections = [] then some place.root else none

/-- The write of the local that a statement makes. -/
def statementWriter (target : LocalId) (statement : HirStatement) : Option AliasWriter :=
  match statement.kind with
  | .Write written value =>
      if wholeWriteLocal written = some target then some (.Expression value) else none
  | .Call callee args results =>
      if results.any fun result => result.localId = target then some (.CallResult callee args)
      else none
  | .MapOp op receiver _ (some result) =>
      if result.localId = target then some (.MapResult op receiver) else none
  | .NumericOp _ _ _ result | .LoopStepFailure _ _ result | .FormatFloat _ _ result
  | .ValidateFloat _ _ result => if result.localId = target then some .Computed else none
  | .RangeCandidate _ _ _ _ _ candidateResult inRangeResult =>
      if candidateResult.localId = target ∨ inRangeResult.localId = target then some .Computed
      else none
  | .MapOp _ _ _ none | .Expr _ | .PushRuntimeFragment _ _ => none

/-- What an `Invoke` writes into its success results. -/
def operationWriter : HirFallibleOperation → AliasWriter
  | .Call target args => .CallResult target args
  | .MapOp op receiver _ => .MapResult op receiver
  | _ => .Computed

/-- The writes of the local that a terminator makes. -/
def terminatorWriters (target : LocalId) : HirTerminator → List AliasWriter
  | .Jump _ args => (args.filter fun argument => argument.destination = target).map
      fun argument => .Transport argument.source
  | .Invoke _ operation _ successResults _ errorResult =>
      if target ∈ successResults then [operationWriter operation]
      else if errorResult = target then [.Computed]
      else []
  | _ => []

def blockWriters (target : LocalId) (block : HirBlock) : List AliasWriter :=
  block.statements.filterMap (statementWriter target) ++ terminatorWriters target block.terminator

/-- What several writes of one local amount to: a parameter's alias survives only where every
write is an alias. -/
def combineWriters (summaries : List FunctionReturnAliasSummary) : FunctionReturnAliasSummary :=
  let aliasParamIndices := sortedIndices (summaries.flatMap fun summary =>
    match summary with
    | .AliasParams indices => indices
    | _ => [])
  let sawFreshWrite := decide (.Fresh ∈ summaries)
  let sawUnknownWrite := decide (.Unknown ∈ summaries)
  let sawAnyWrite := decide (summaries ≠ [])
  if aliasParamIndices ≠ [] then
    if sawFreshWrite || sawUnknownWrite then .Unknown else .AliasParams aliasParamIndices
  else if sawUnknownWrite then .Unknown
  else if sawFreshWrite || sawAnyWrite then .Fresh
  else .Unknown

section Classifier

variable (store : HirExpressionStore) (environment : CallEnvironment) (summaries : SummaryTable)
  (params : List LocalId) (blocks : List HirBlock)

/-- A classification, or the error that ends it. -/
abbrev Classified : Type := Except CallSummaryError FunctionReturnAliasSummary

/-- The position of a parameter; parameters are distinct. -/
def paramIndex (target : LocalId) : Option Nat := params.idxOf? target

section Writer

variable (classifyLocal : LocalId → Classified)

/-- Copies and computed values are independent results. -/
def classifyReturnExpression (value : HirValueId) : Classified :=
  match (store.expression value).kind with
  | .Load place =>
      match paramIndex params place.root with
      | some index => .ok (.AliasParams [index])
      | none => classifyLocal place.root
  | _ => .ok .Fresh

/-- The arguments at a callee's alias indices, with the caller's indices gathered so far. -/
def projectArguments (args : List HirValueId) : List Nat → List Nat → Classified
  | [], callerParamIndices =>
      let sorted := sortedIndices callerParamIndices
      .ok (if sorted = [] then .Fresh else .AliasParams sorted)
  | index :: rest, callerParamIndices =>
      match args[index]? with
      | none => .error (.AliasArgumentOutOfRange index args.length)
      | some argument =>
          match classifyReturnExpression store params classifyLocal argument with
          | .error e => .error e
          | .ok .Fresh => projectArguments args rest callerParamIndices
          | .ok (.AliasParams indices) => projectArguments args rest (callerParamIndices ++ indices)
          | .ok .Unknown => .ok .Unknown

def projectAliasSummaryThroughArguments (args : List HirValueId) :
    FunctionReturnAliasSummary → Classified
  | .Fresh => .ok .Fresh
  | .Unknown => .ok .Unknown
  | .AliasParams indices => projectArguments store params classifyLocal args indices []

/-- The alias summary of a callee, wherever it is retained. -/
def calleeReturnAlias (target : CallTarget) : Classified :=
  let found := match target with
    | .Local function => (summaries function).map fun summary => summary.returnAlias
    | .CrossModule origin =>
        (environment.importedCallSummaries origin).map fun summary => summary.returnAlias
    | .ModulePrivate identity =>
        (environment.modulePrivateCallSummaries identity).map fun summary => summary.returnAlias
    | .Generated identity =>
        (environment.generatedCallSummaries identity).map fun summary => summary.returnAlias
    | .External function =>
        (environment.externalFunctions function).map ExternalFunctionDef.hirReturnAlias
  match found with
  | some returnAlias => .ok returnAlias
  | none => .error (.MissingSummary target)

def classifyCallResult (target : CallTarget) (args : List HirValueId) : Classified :=
  match calleeReturnAlias environment summaries target with
  | .error e => .error e
  | .ok returnAlias =>
      projectAliasSummaryThroughArguments store params classifyLocal args returnAlias

/-- Only a lookup hands out part of its receiver. -/
def classifyMapResult (op : HirMapOp) (receiver : HirValueId) : Classified :=
  if op = .Get then classifyReturnExpression store params classifyLocal receiver else .ok .Fresh

def classifyWriter : AliasWriter → Classified
  | .Expression value => classifyReturnExpression store params classifyLocal value
  | .CallResult target args =>
      classifyCallResult store environment summaries params classifyLocal target args
  | .MapResult op receiver => classifyMapResult store params classifyLocal op receiver
  | .Computed => .ok .Fresh
  | .Transport source =>
      match paramIndex params source with
      | some index => .ok (.AliasParams [index])
      | none => classifyLocal source

end Writer

/-- The provenance of a local, from its writers in the reachable blocks. -/
def classifyReturnLocal : Nat → List LocalId → LocalId → Classified
  | 0, _, _ => .error .DepthExhausted
  | fuel + 1, visitingLocals, target =>
      if target ∈ visitingLocals then .ok .Unknown
      else
        ((blocks.flatMap (blockWriters target)).mapM
          (classifyWriter store environment summaries params
            (classifyReturnLocal fuel (target :: visitingLocals)))).map combineWriters

/-- The locals that the blocks write. -/
def aliasWrittenLocals : List LocalId :=
  blocks.flatMap fun block =>
    block.statements.flatMap collectStatementWrittenLocals ++
    match block.terminator with
      | .Jump _ args => args.map fun argument => argument.destination
      | .Invoke _ _ _ successResults _ errorResult => successResults ++ [errorResult]
      | _ => []

/-- A level for every local with a writer, and one for a local without. -/
def classificationDepth : Nat := (aliasWrittenLocals blocks).length + 1

def classifyReturned (value : HirValueId) : Classified :=
  classifyReturnExpression store params
    (classifyReturnLocal store environment summaries params blocks (classificationDepth blocks) [])
    value

/-- The values of the return in one block, merged into what the earlier ones gave. -/
def mergeReturned : List HirValueId → FunctionReturnAliasSummary → Classified
  | [], summary => .ok summary
  | value :: rest, summary =>
      match classifyReturned store environment summaries params blocks value with
      | .error e => .error e
      | .ok returned => mergeReturned rest (mergeReturnAlias summary returned)

/-- The return blocks in order, ending early at `Unknown`. -/
def classifyReturnBlocks : List HirBlock → FunctionReturnAliasSummary → Bool → Classified
  | [], summary, sawReturn => .ok (if sawReturn then summary else .Unknown)
  | block :: rest, summary, sawReturn =>
      match block.terminator with
      | .Return values =>
          match mergeReturned store environment summaries params blocks values summary with
          | .error e => .error e
          | .ok .Unknown => .ok .Unknown
          | .ok merged => classifyReturnBlocks rest merged true
      | _ => classifyReturnBlocks rest summary sawReturn

end Classifier

/-- The reachable blocks of a function, in breadth-first order. -/
def reachableBlocks (hir : HirModule) (function : HirFunction) :
    Except CallSummaryError (List HirBlock) :=
  match hir.collectReachableBlocks function.entry with
  | none => .error (.UnresolvedBlock function.id)
  | some ids =>
      match ids.mapM hir.blockById with
      | none => .error (.UnresolvedBlock function.id)
      | some blocks => .ok blocks

def classifyFunctionReturnAlias (hir : HirModule) (environment : CallEnvironment)
    (summaries : SummaryTable) (function : HirFunction) : Classified :=
  match reachableBlocks hir function with
  | .error e => .error e
  | .ok blocks =>
      classifyReturnBlocks hir.expressions environment summaries function.params blocks blocks
        .Fresh false

end Moth.Borrow
