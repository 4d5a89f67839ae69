import Mathlib.Data.Finset.Lattice.Lemmas
import Moth.Hir.Definitions
import Moth.Source.Span

/-!
# Function link facts

`hir/reachability.rs`, first half: what each block of a function calls and
uses, collected once for every function of a module. The spans and side rows
that the representation leaves out come from `HirSideFacts`.

The calls of a block to functions of the module are kept apart from its other
facts: a call is recorded for the first block of the function that makes it,
and nothing else depends on another block. A canonical sorted vector of
synthetic-interface members is the set of its members. An ended fuel has no
result; the callers' fuel is shown to suffice.
-/

namespace Moth.Hir

open Moth.Source

/-! ## What the representation leaves out -/

inductive SyntheticInterfaceClass where
  | ProjectContext
  | Builder
deriving DecidableEq

structure SyntheticInterfaceMemberIdentity where
  class_ : SyntheticInterfaceClass
  interface : String
  member : String
deriving DecidableEq

abbrev SyntheticInterfaceProvenance : Type := Finset SyntheticInterfaceMemberIdentity

def containsClass (provenance : SyntheticInterfaceProvenance) (cls : SyntheticInterfaceClass) :
    Bool :=
  decide (∃ member ∈ provenance, member.class_ = cls)

inductive HirAssertionMessageEvaluation where
  | Default
  | Folded
  | Runtime
deriving DecidableEq

inductive ConstStringPiece where
  | Text (text : Nat)
  | Resource (resourceId : Nat)
  | SiteRoot

/-- Spans, provenance and string pieces, by the row they belong to. -/
structure HirSideFacts where
  functionProvenance : FunctionId → Option SyntheticInterfaceProvenance
  functionSpan : FunctionId → Option SourceSpan
  statementSpan : HirNodeId → Option SourceSpan
  invokeSpan : HirNodeId → Option SourceSpan
  terminatorSpan : BlockId → Option SourceSpan
  expressionSpan : HirValueId → Option SourceSpan
  stringPieces : HirValueId → List ConstStringPiece
  messageEvaluation : BlockId → HirAssertionMessageEvaluation

/-! ## Runtime facts -/

inductive ReachableMapUseKind where
  | Literal
  | Operation (op : HirMapOp)

structure ReachableMapUse where
  kind : ReachableMapUseKind
  span : Option SourceSpan

structure ReachableResourceUse where
  resourceId : Nat
  owner : FunctionId
  span : Option SourceSpan

structure ReachableSiteRootUse where
  owner : FunctionId
  span : Option SourceSpan

structure ReachableAssertionMessageUse where
  evaluation : HirAssertionMessageEvaluation
  span : Option SourceSpan

structure ReachableExternalCall where
  functionId : Nat
  span : Option SourceSpan

inductive ReachableRuntimeCastForm where
  | Expression
  | Invoke

structure ReachableRuntimeCastUse where
  span : Option SourceSpan
  policy : BuiltinCastPolicyId
  form : ReachableRuntimeCastForm

inductive ReachableNumericDelivery where
  | Statement (mode : NumericFailureMode)
  | Invoke

structure ReachableNumericOpUse where
  op : HirNumericOp
  delivery : ReachableNumericDelivery
  span : Option SourceSpan

structure ReachableLoopStepFailureUse where
  cause : LoopStepFailureCause
  delivery : ReachableNumericDelivery
  span : Option SourceSpan

inductive ReachableFloatStatementKind where
  | FormatFloat
  | ValidateFloat

structure ReachableFloatStatementUse where
  kind : ReachableFloatStatementKind
  delivery : ReachableNumericDelivery
  span : Option SourceSpan

/-- What a block uses and calls outside the module's own functions. -/
structure RuntimeUses where
  directCrossModuleCalls : List Nat
  directModulePrivateCalls : List Nat
  directGeneratedCalls : List Nat
  reachableExternalFunctions : Finset Nat
  reachableExternalCalls : List ReachableExternalCall
  reachableMapUses : List ReachableMapUse
  reachableResourceUses : List ReachableResourceUse
  reachableSiteRootUses : List ReachableSiteRootUse
  reachableRuntimeCasts : List ReachableRuntimeCastUse
  reachableNumericOps : List ReachableNumericOpUse
  reachableLoopStepFailures : List ReachableLoopStepFailureUse
  reachableFloatStatements : List ReachableFloatStatementUse
  reachableAssertionMessages : List ReachableAssertionMessageUse

namespace RuntimeUses

def empty : RuntimeUses := ⟨[], [], [], ∅, [], [], [], [], [], [], [], [], []⟩

variable (uses : RuntimeUses)

def pushMapUse (use : ReachableMapUse) : RuntimeUses :=
  { uses with reachableMapUses := uses.reachableMapUses ++ [use] }

def pushRuntimeCast (use : ReachableRuntimeCastUse) : RuntimeUses :=
  { uses with reachableRuntimeCasts := uses.reachableRuntimeCasts ++ [use] }

def pushNumericOp (use : ReachableNumericOpUse) : RuntimeUses :=
  { uses with reachableNumericOps := uses.reachableNumericOps ++ [use] }

def pushLoopStepFailure (use : ReachableLoopStepFailureUse) : RuntimeUses :=
  { uses with reachableLoopStepFailures := uses.reachableLoopStepFailures ++ [use] }

def pushFloatStatement (use : ReachableFloatStatementUse) : RuntimeUses :=
  { uses with reachableFloatStatements := uses.reachableFloatStatements ++ [use] }

def pushAssertionMessage (use : ReachableAssertionMessageUse) : RuntimeUses :=
  { uses with reachableAssertionMessages := uses.reachableAssertionMessages ++ [use] }

/-- One piece of a structural string. -/
def pushStringPiece (owner : FunctionId) (span : Option SourceSpan) (uses : RuntimeUses) :
    ConstStringPiece → RuntimeUses
  | .Text _ => uses
  | .Resource resourceId =>
      { uses with
        reachableResourceUses := uses.reachableResourceUses ++ [⟨resourceId, owner, span⟩] }
  | .SiteRoot =>
      { uses with reachableSiteRootUses := uses.reachableSiteRootUses ++ [⟨owner, span⟩] }

/-- A call that leaves the module's own functions; what one of them is called for is kept apart. -/
def collectCallTarget (span : Option SourceSpan) : CallTarget → RuntimeUses
  | .Local _ => uses
  | .CrossModule origin =>
      if origin ∈ uses.directCrossModuleCalls then uses
      else { uses with directCrossModuleCalls := uses.directCrossModuleCalls ++ [origin] }
  | .ModulePrivate identity =>
      if identity ∈ uses.directModulePrivateCalls then uses
      else { uses with directModulePrivateCalls := uses.directModulePrivateCalls ++ [identity] }
  | .Generated identity =>
      if identity ∈ uses.directGeneratedCalls then uses
      else { uses with directGeneratedCalls := uses.directGeneratedCalls ++ [identity] }
  | .External functionId =>
      { uses with
        reachableExternalFunctions := insert functionId uses.reachableExternalFunctions
        reachableExternalCalls := uses.reachableExternalCalls ++ [⟨functionId, span⟩] }

end RuntimeUses

/-! ## Expressions -/

/-- One expression still to record, with the span it inherits when it has none of its own. -/
structure PendingExpression where
  expressionId : HirValueId
  fallbackSpan : Option SourceSpan

section Collector

variable (hir : HirModule) (side : HirSideFacts) (ownerFunction : FunctionId)

/-- The facts one expression row owns. -/
def collectExpression (expressionId : HirValueId) (span : Option SourceSpan)
    (uses : RuntimeUses) : RuntimeUses :=
  match (hir.expressions.expression expressionId).kind with
  | .MapLiteral _ => uses.pushMapUse ⟨.Literal, span⟩
  | .Cast _ policy => uses.pushRuntimeCast ⟨span, policy, .Expression⟩
  | .StructuralString =>
      (side.stringPieces expressionId).foldl (RuntimeUses.pushStringPiece ownerFunction span) uses
  | _ => uses

/-- The work list, its top at the head; children come before what was pending. -/
def collectPending (pending : List PendingExpression) (uses : RuntimeUses) : RuntimeUses :=
  match pending with
  | [] => uses
  | entry :: rest =>
      let span := (side.expressionSpan entry.expressionId).or entry.fallbackSpan
      collectPending
        ((hir.expressions.childValues entry.expressionId).map (fun child => ⟨child, span⟩) ++ rest)
        (collectExpression hir side ownerFunction entry.expressionId span uses)
termination_by hir.expressions.pendingSize (pending.map PendingExpression.expressionId)
decreasing_by
  have hsize := hir.expressions.treeSize_eq entry.expressionId
  rw [List.map_append, List.map_map, HirExpressionStore.pendingSize_append, List.map_cons,
    HirExpressionStore.pendingSize_cons]
  show hir.expressions.pendingSize (List.map id _) + _ < _
  rw [List.map_id]
  omega

def collect (expressionId : HirValueId) (fallbackSpan : Option SourceSpan) (uses : RuntimeUses) :
    RuntimeUses :=
  collectPending hir side ownerFunction [⟨expressionId, fallbackSpan⟩] uses

/-- Several expressions under one span, in order. -/
def collectAll (values : List HirValueId) (fallbackSpan : Option SourceSpan)
    (uses : RuntimeUses) : RuntimeUses :=
  values.foldl (fun uses value => collect hir side ownerFunction value fallbackSpan uses) uses

/-! ## Statements and terminators -/

/-- The place indexes a write target evaluates. -/
def HirWriteTarget.indexValues : HirWriteTarget → List HirValueId
  | .DefineLocal _ => []
  | .AssignPlace place => place.indexValues

def collectRuntimeFeatureUsesFromStatement (statement : HirStatement) (uses : RuntimeUses) :
    RuntimeUses :=
  let span := side.statementSpan statement.id
  let collectValues := fun values => collectAll hir side ownerFunction values span
  match statement.kind with
  | .Write target value => collectValues (target.indexValues ++ [value]) uses
  | .Expr value => collectValues [value] uses
  | .Call _ args _ => collectValues args uses
  | .PushRuntimeFragment _ value => collectValues [value] uses
  | .MapOp op receiver args _ =>
      collectValues (receiver :: args) (uses.pushMapUse ⟨.Operation op, span⟩)
  | .RangeCandidate current step last _ _ _ _ => collectValues [current, step, last] uses
  | .NumericOp op failureMode operands _ =>
      collectValues operands.values (uses.pushNumericOp ⟨op, .Statement failureMode, span⟩)
  | .LoopStepFailure cause failureMode _ =>
      uses.pushLoopStepFailure ⟨cause, .Statement failureMode, span⟩
  | .FormatFloat source failureMode _ =>
      collectValues [source]
        (uses.pushFloatStatement ⟨.FormatFloat, .Statement failureMode, span⟩)
  | .ValidateFloat source failureMode _ =>
      collectValues [source]
        (uses.pushFloatStatement ⟨.ValidateFloat, .Statement failureMode, span⟩)

def collectRuntimeFeatureUsesFromInvoke (operation : HirFallibleOperation)
    (span : Option SourceSpan) (uses : RuntimeUses) : RuntimeUses :=
  let recorded := match operation with
    | .Call target _ => uses.collectCallTarget span target
    | .MapOp op _ _ => uses.pushMapUse ⟨.Operation op, span⟩
    | .NumericOp op _ => uses.pushNumericOp ⟨op, .Invoke, span⟩
    | .CastOp policy _ => uses.pushRuntimeCast ⟨span, policy, .Invoke⟩
    | .LoopStepFailure cause => uses.pushLoopStepFailure ⟨cause, .Invoke, span⟩
    | .FormatFloat _ => uses.pushFloatStatement ⟨.FormatFloat, .Invoke, span⟩
    | .ValidateFloat _ => uses.pushFloatStatement ⟨.ValidateFloat, .Invoke, span⟩
  collectAll hir side ownerFunction operation.operands span recorded

/-- What a match arm evaluates. -/
def HirMatchArm.values (arm : HirMatchArm) : List HirValueId :=
  arm.pattern.value.toList ++ arm.guard.toList

def collectRuntimeFeatureUsesFromTerminator (block : HirBlock) (uses : RuntimeUses) :
    RuntimeUses :=
  let fallbackSpan := side.terminatorSpan block.id
  let collectValues := fun values => collectAll hir side ownerFunction values fallbackSpan
  match block.terminator with
  | .If condition _ _ => collectValues [condition] uses
  | .Invoke id operation _ _ _ _ =>
      collectRuntimeFeatureUsesFromInvoke hir side ownerFunction operation
        ((side.invokeSpan id).or fallbackSpan) uses
  | .Match scrutinee arms => collectValues (scrutinee :: arms.flatMap HirMatchArm.values) uses
  | .Return values => collectValues values uses
  | .ReturnError value => collectValues [value] uses
  | .Jump _ _ | .Break _ | .Continue _ | .RuntimeFailure _ | .Uninitialized => uses
  | .AssertFailure message =>
      let span := (side.expressionSpan message).or fallbackSpan
      collectValues [message]
        (uses.pushAssertionMessage ⟨side.messageEvaluation block.id, span⟩)

/-- A statement's uses, and where it calls out of the module's own functions. -/
def visitStatement (uses : RuntimeUses) (statement : HirStatement) : RuntimeUses :=
  let collected := collectRuntimeFeatureUsesFromStatement hir side ownerFunction statement uses
  match statement.kind with
  | .Call target _ _ => collected.collectCallTarget (side.statementSpan statement.id) target
  | _ => collected

/-- The uses of a block: its statements, then its terminator. -/
def blockUses (block : HirBlock) : RuntimeUses :=
  collectRuntimeFeatureUsesFromTerminator hir side ownerFunction block
    (block.statements.foldl (visitStatement hir side ownerFunction) .empty)

end Collector

/-! ## Calls to functions of the module -/

def CallTarget.localFunction : CallTarget → Option FunctionId
  | .Local function => some function
  | _ => none

def HirStatement.localCall (statement : HirStatement) : Option FunctionId :=
  match statement.kind with
  | .Call target _ _ => target.localFunction
  | _ => none

def HirTerminator.localCall : HirTerminator → Option FunctionId
  | .Invoke _ (.Call target _) _ _ _ _ => target.localFunction
  | _ => none

/-- The functions a block calls, statement calls first. -/
def HirBlock.localCalls (block : HirBlock) : List FunctionId :=
  block.statements.filterMap HirStatement.localCall ++ block.terminator.localCall.toList

/-- Record the calls not seen before: the seen calls, and those recorded. -/
def recordUserCalls : List FunctionId → Finset FunctionId → List FunctionId →
    Finset FunctionId × List FunctionId
  | [], seenUserCalls, directUserCalls => (seenUserCalls, directUserCalls)
  | function :: rest, seenUserCalls, directUserCalls =>
      if function ∈ seenUserCalls then recordUserCalls rest seenUserCalls directUserCalls
      else recordUserCalls rest (insert function seenUserCalls) (directUserCalls ++ [function])

/-! ## The facts of a module -/

structure HirBlockLinkFacts where
  blockId : BlockId
  functionId : FunctionId
  successorBlocks : List BlockId
  directUserCalls : List FunctionId
  directUses : RuntimeUses

structure HirFunctionLinkFacts where
  functionId : FunctionId
  entryBlock : BlockId
  syntheticInterfaceProvenance : SyntheticInterfaceProvenance
  declarationSpan : Option SourceSpan

structure HirModuleLinkFacts where
  functions : List HirFunctionLinkFacts
  blocks : List HirBlockLinkFacts

/-- The internal failures of the analysis. -/
inductive HirReachabilityError where
  | duplicateFunction (function : FunctionId)
  | duplicateBlock (block : BlockId)
  | unknownBlock (block : BlockId)
  | missingProvenance (function : FunctionId)
  | uninitializedTerminator
  | missingFunctionFacts (function : FunctionId)
  | missingBlockFacts (block : BlockId)
  | reachedBeforeOwner (block : BlockId) (owner : FunctionId)
  | unknownSelectedFunction
  | unassignedFunction (function : FunctionId)
  | blockMismatch (function : FunctionId)
  | assignedTwice (block : BlockId)
  | omittedCallee (callee function : FunctionId)
  | unassignedBlock

def terminatorSuccessors : HirTerminator → Except HirReachabilityError (List BlockId)
  | .Uninitialized => .error .uninitializedTerminator
  | terminator => .ok terminator.targets

/-- The first id that stands twice. -/
def firstDuplicate {α : Type} [DecidableEq α] : List α → List α → Option α
  | [], _ => none
  | id :: rest, seen => if id ∈ seen then some id else firstDuplicate rest (id :: seen)

/-- `HirReachabilityIndex::new`: both maps reject a duplicate. -/
def reachabilityIndex (hir : HirModule) : Except HirReachabilityError Unit :=
  match firstDuplicate (hir.functions.map HirFunction.id) [] with
  | some function => .error (.duplicateFunction function)
  | none =>
      match firstDuplicate (hir.blocks.map HirBlock.id) [] with
      | some block => .error (.duplicateBlock block)
      | none => .ok ()

/-- The state of the traversal of one function. -/
structure CollectState where
  blockWorklist : List BlockId
  visitedBlocks : Finset BlockId
  seenUserCalls : Finset FunctionId
  blockFacts : List HirBlockLinkFacts

section Function

variable (hir : HirModule) (side : HirSideFacts) (ownerFunction : FunctionId)

/-- Visit a block taken from the worklist. -/
def visitBlock (blockId : BlockId) (state : CollectState) :
    Except HirReachabilityError CollectState :=
  if blockId ∈ state.visitedBlocks then .ok state
  else
    match hir.blockById blockId with
    | none => .error (.unknownBlock blockId)
    | some block => do
        let (seenUserCalls, directUserCalls) :=
          recordUserCalls block.localCalls state.seenUserCalls []
        let successorBlocks ← terminatorSuccessors block.terminator
        let visitedBlocks := insert blockId state.visitedBlocks
        .ok {
          blockWorklist := state.blockWorklist ++
            successorBlocks.filter fun successor => decide (successor ∉ visitedBlocks)
          visitedBlocks
          seenUserCalls
          blockFacts := state.blockFacts ++
            [⟨blockId, ownerFunction, successorBlocks, directUserCalls,
              blockUses hir side ownerFunction block⟩] }

def collectBlocks : Nat → CollectState → Option (Except HirReachabilityError CollectState)
  | 0, _ => none
  | fuel + 1, state =>
      match state.blockWorklist with
      | [] => some (.ok state)
      | blockId :: rest =>
          match visitBlock hir side ownerFunction blockId { state with blockWorklist := rest } with
          | .error error => some (.error error)
          | .ok next => collectBlocks fuel next

/-- The facts of one function, in the order its blocks are visited. -/
def collectFunction (fuel : Nat) (entryBlock : BlockId) :
    Option (Except HirReachabilityError (List HirBlockLinkFacts)) :=
  (collectBlocks hir side ownerFunction fuel ⟨[entryBlock], ∅, ∅, []⟩).map fun result =>
    result.map CollectState.blockFacts

end Function

/-- A bound on the steps of every traversal of a module: each block is visited once and pushes
its successors once. -/
def HirModule.traversalFuel (hir : HirModule) : Nat :=
  (hir.blocks.map fun block => block.terminator.targets.length + block.localCalls.length + 2).sum +
    2 * hir.functions.length + 2

def collectFunctions (hir : HirModule) (side : HirSideFacts) :
    List HirFunction → HirModuleLinkFacts →
      Option (Except HirReachabilityError HirModuleLinkFacts)
  | [], facts => some (.ok facts)
  | function :: rest, facts =>
      match side.functionProvenance function.id with
      | none => some (.error (.missingProvenance function.id))
      | some provenance => do
          match ← collectFunction hir side function.id hir.traversalFuel function.entry with
          | .error error => some (.error error)
          | .ok functionBlockFacts =>
              collectFunctions hir side rest {
                functions := facts.functions ++
                  [⟨function.id, function.entry, provenance, side.functionSpan function.id⟩]
                blocks := facts.blocks ++ functionBlockFacts }

def collectModuleFunctionLinkFacts (hir : HirModule) (side : HirSideFacts) :
    Option (Except HirReachabilityError HirModuleLinkFacts) :=
  match reachabilityIndex hir with
  | .error error => some (.error error)
  | .ok () => do
      let functions := hir.functions.mergeSort fun left right =>
        decide (left.id.index ≤ right.id.index)
      match ← collectFunctions hir side functions ⟨[], []⟩ with
      | .error error => some (.error error)
      | .ok facts =>
          some (.ok { facts with
            blocks := facts.blocks.mergeSort fun left right =>
              decide (left.blockId.index ≤ right.blockId.index) })

end Moth.Hir
