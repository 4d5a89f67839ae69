import Moth.Hir.Flow
import Moth.Lib.DefiniteFlow

/-!
# Definite definitions

`hir/validation/dominance.rs`: the check that every local is defined before it
is read, on every path through its function.

Incoming definitions are solved first, over all functions in order, and the
reads are checked afterwards against the solved sets. An id without a block and
a block without a set would panic; they stand here as failures of their own. A
result that updates a local is entered among the definitions as well, after it
was required to be one.
-/

namespace Moth.Hir

open Moth.Lib

abbrev Definitions := Finset LocalId

inductive DefinitionFailure where
  | hirTransformation (message : String)
  | missingBlock (id : BlockId)
deriving DecidableEq

/-! ## Transfer -/

def transferStatementDefinitions (kind : HirStatementKind) (defined : Definitions) :
    Definitions :=
  match kind with
  | .Write (.DefineLocal target) _ => insert target defined
  | .Call _ _ results => defined ∪ (results.map HirLocalDestination.localId).toFinset
  | .MapOp _ _ _ result =>
      match result with
      | some result => insert result.localId defined
      | none => defined
  | .NumericOp _ _ _ result => insert result.localId defined
  | .LoopStepFailure _ _ result => insert result.localId defined
  | .FormatFloat _ _ result => insert result.localId defined
  | .ValidateFloat _ _ result => insert result.localId defined
  | .RangeCandidate _ _ _ _ _ candidateResult inRangeResult =>
      insert inRangeResult.localId (insert candidateResult.localId defined)
  | .Write (.AssignPlace _) _ => defined
  | .Expr _ => defined
  | .PushRuntimeFragment _ _ => defined

def transferStatements (statements : List HirStatement) (defined : Definitions) : Definitions :=
  statements.foldl (fun defined statement => transferStatementDefinitions statement.kind defined)
    defined

/-- What each edge of a terminator carries. The two edges of an `Invoke` have
different definitions even where they lead to one block. -/
def edgeDefinitions (terminator : HirTerminator) (outgoing : Definitions) :
    List (BlockId × Definitions) :=
  match terminator with
  | .Invoke _ _ success successResults failure errorResult =>
      let outgoing := (outgoing \ successResults.toFinset).erase errorResult
      let successDefinitions := outgoing ∪ successResults.toFinset
      [(success, successDefinitions), (failure, insert errorResult outgoing)]
  | .Jump target args => [(target, outgoing ∪ (args.map (·.destination)).toFinset)]
  | terminator => terminator.targets.map fun target => (target, outgoing)

def visitDefinitions (hir : HirModule) (id : BlockId) (incoming : Option Definitions) :
    Except DefinitionFailure (List (BlockId × Definitions)) :=
  match hir.blockById id with
  | none => .error (.missingBlock id)
  | some block =>
      match incoming with
      | none => .error (.missingBlock id)
      | some defined =>
          .ok (edgeDefinitions block.terminator (transferStatements block.statements defined))

/-! ## Reads -/

def requireDefinedLocal (l : LocalId) (defined : Definitions) : Except DefinitionFailure Unit :=
  if l ∈ defined then .ok ()
  else .error (.hirTransformation ("Local l" ++ toString l.index ++
    " is not definitely defined before this use (definition does not dominate the use)"))

/-- The rows of an expression tree, a shared row once for every use. -/
def HirExpressionStore.treeSize (store : HirExpressionStore) (value : HirValueId) : Nat :=
  1 + ((store.childValues value).attach.map fun child => store.treeSize child.1).sum
termination_by store.rank value
decreasing_by exact store.rank_child value child.1 child.2

/-- What is left of a traversal. -/
def HirExpressionStore.pendingSize (store : HirExpressionStore) (pending : List HirValueId) :
    Nat :=
  (pending.map store.treeSize).sum

theorem HirExpressionStore.treeSize_eq (store : HirExpressionStore) (value : HirValueId) :
    store.treeSize value = 1 + store.pendingSize (store.childValues value) := by
  rw [treeSize, pendingSize, List.attach_map_val]

theorem HirExpressionStore.pendingSize_append (store : HirExpressionStore)
    (first later : List HirValueId) :
    store.pendingSize (first ++ later) = store.pendingSize first + store.pendingSize later := by
  rw [pendingSize, pendingSize, pendingSize, List.map_append, List.sum_append]

theorem HirExpressionStore.pendingSize_reverse (store : HirExpressionStore)
    (pending : List HirValueId) : store.pendingSize pending.reverse = store.pendingSize pending := by
  rw [pendingSize, pendingSize, List.map_reverse, List.sum_reverse]

/-- The children of a row, the one that is visited next first: a place's indexes
are stacked in projection order, and other children against it. -/
def HirExpressionStore.stackedChildren (store : HirExpressionStore) (value : HirValueId) :
    List HirValueId :=
  match (store.expression value).kind with
  | .Load place => place.indexValues.reverse
  | .Copy place => place.indexValues.reverse
  | _ => store.childValues value

/-- The local a row reads itself. -/
def HirExpressionKind.readRoot : HirExpressionKind → Option LocalId
  | .Load place => some place.root
  | .Copy place => some place.root
  | _ => none

theorem HirExpressionStore.mem_stackedChildren {store : HirExpressionStore}
    {value child : HirValueId} :
    child ∈ store.stackedChildren value ↔ child ∈ store.childValues value := by
  unfold stackedChildren childValues
  cases (store.expression value).kind <;> simp [HirExpressionKind.childValues]

theorem HirExpressionStore.pendingSize_stackedChildren (store : HirExpressionStore)
    (value : HirValueId) :
    store.pendingSize (store.stackedChildren value) + 1 = store.treeSize value := by
  have hsame : store.pendingSize (store.stackedChildren value) =
      store.pendingSize (store.childValues value) := by
    unfold stackedChildren childValues
    cases (store.expression value).kind <;>
      simp [HirExpressionKind.childValues, pendingSize_reverse]
  rw [hsame, treeSize_eq, Nat.add_comm]

theorem HirExpressionStore.pendingSize_cons (store : HirExpressionStore) (value : HirValueId)
    (rest : List HirValueId) :
    store.pendingSize (value :: rest) = store.treeSize value + store.pendingSize rest := by
  rw [pendingSize, pendingSize, List.map_cons, List.sum_cons]

theorem HirExpressionStore.pendingSize_rest_lt (store : HirExpressionStore) (value : HirValueId)
    (rest : List HirValueId) : store.pendingSize rest < store.pendingSize (value :: rest) := by
  rw [pendingSize_cons, treeSize_eq]
  omega

theorem HirExpressionStore.pendingSize_stacked_lt (store : HirExpressionStore)
    (value : HirValueId) (rest : List HirValueId) :
    store.pendingSize (store.stackedChildren value ++ rest) <
      store.pendingSize (value :: rest) := by
  have hsize := store.pendingSize_stackedChildren value
  rw [pendingSize_append, pendingSize_cons]
  omega

/-- The loop of `validate_expression_reads`; the top of the stack is the head. -/
def validatePendingReads (store : HirExpressionStore) (defined : Definitions)
    (pending seen : List HirValueId) : Except DefinitionFailure Unit :=
  match pending with
  | [] => .ok ()
  | value :: rest =>
      if value ∈ seen then validatePendingReads store defined rest seen
      else
        match (store.expression value).kind.readRoot with
        | some root =>
            match requireDefinedLocal root defined with
            | .error failure => .error failure
            | .ok () =>
                validatePendingReads store defined (store.stackedChildren value ++ rest)
                  (value :: seen)
        | none =>
            validatePendingReads store defined (store.stackedChildren value ++ rest)
              (value :: seen)
termination_by store.pendingSize pending
decreasing_by
  · exact store.pendingSize_rest_lt value rest
  · exact store.pendingSize_stacked_lt value rest
  · exact store.pendingSize_stacked_lt value rest

def validateExpressionReads (store : HirExpressionStore) (value : HirValueId)
    (defined : Definitions) : Except DefinitionFailure Unit :=
  validatePendingReads store defined [value] []

/-- One read of an operation, in the order they are checked. -/
inductive ReadStep where
  | expression (value : HirValueId)
  | localRead (l : LocalId)
deriving DecidableEq

def validateReadStep (store : HirExpressionStore) (defined : Definitions) :
    ReadStep → Except DefinitionFailure Unit
  | .expression value => validateExpressionReads store value defined
  | .localRead l => requireDefinedLocal l defined

def validateReadSteps (store : HirExpressionStore) (defined : Definitions) :
    List ReadStep → Except DefinitionFailure Unit
  | [] => .ok ()
  | step :: rest => do
      validateReadStep store defined step
      validateReadSteps store defined rest

/-- `validate_destination_reads`. -/
def HirLocalDestination.readSteps : HirLocalDestination → List ReadStep
  | .Update l => [.localRead l]
  | .Define _ => []

/-- `validate_place_reads`. -/
def HirPlace.readSteps (place : HirPlace) : List ReadStep :=
  .localRead place.root :: place.indexValues.map .expression

/-- `validate_statement_reads`. -/
def HirStatementKind.readSteps : HirStatementKind → List ReadStep
  | .Write (.DefineLocal _) value => [.expression value]
  | .Write (.AssignPlace place) value => .expression value :: place.readSteps
  | .Call _ args results => args.map .expression ++ results.flatMap HirLocalDestination.readSteps
  | .Expr value => [.expression value]
  | .PushRuntimeFragment vecLocal value => [.expression value, .localRead vecLocal]
  | .MapOp _ receiver args result =>
      .expression receiver :: args.map .expression ++
        result.toList.flatMap HirLocalDestination.readSteps
  | .NumericOp _ _ operands result => operands.values.map .expression ++ result.readSteps
  | .LoopStepFailure _ _ result => result.readSteps
  | .RangeCandidate current step last _ _ candidateResult inRangeResult =>
      [.expression current, .expression step, .expression last] ++
        (candidateResult.readSteps ++ inRangeResult.readSteps)
  | .FormatFloat source _ result => .expression source :: result.readSteps
  | .ValidateFloat source _ result => .expression source :: result.readSteps

/-- The pattern and the guard of one arm. -/
def HirMatchArm.readSteps (arm : HirMatchArm) : List ReadStep :=
  (arm.pattern.value.toList ++ arm.guard.toList).map .expression

/-- The local of a runtime failure's cause. -/
def RuntimeFailureCause.error : RuntimeFailureCause → LocalId
  | .StoreConversion error => error
  | .AuthoredCastConversion error => error

/-- `validate_terminator_reads`. All sources of a jump are read before any
destination exists. -/
def HirTerminator.readSteps : HirTerminator → List ReadStep
  | .Jump _ args => args.map fun argument => .localRead argument.source
  | .If condition _ _ => [.expression condition]
  | .Invoke _ operation _ _ _ _ => operation.operands.map .expression
  | .Match scrutinee arms => .expression scrutinee :: arms.flatMap HirMatchArm.readSteps
  | .Return values => values.map .expression
  | .ReturnError value => [.expression value]
  | .AssertFailure message => [.expression message]
  | .RuntimeFailure (some cause) => [.localRead cause.error]
  | .RuntimeFailure none => []
  | .Break _ => []
  | .Continue _ => []
  | .Uninitialized => []

/-- The reads of a block, each statement against what is defined before it. -/
def validateBlockReads (store : HirExpressionStore) (terminator : HirTerminator) :
    List HirStatement → Definitions → Except DefinitionFailure Unit
  | [], defined => validateReadSteps store defined terminator.readSteps
  | statement :: rest, defined => do
      validateReadSteps store defined statement.kind.readSteps
      validateBlockReads store terminator rest (transferStatementDefinitions statement.kind defined)

/-! ## The module -/

/-- Every local that a terminator defines on one of its edges. -/
def HirTerminator.edgeLocals : HirTerminator → Definitions
  | .Jump _ args => (args.map (·.destination)).toFinset
  | .Invoke _ _ _ successResults _ errorResult => insert errorResult successResults.toFinset
  | _ => ∅

/-- The locals that a module defines somewhere, which bounds every set of the solver. -/
def HirModule.definableLocals (hir : HirModule) : Definitions :=
  (hir.functions.map fun function => function.params.toFinset).foldr (· ∪ ·) ∅ ∪
    (hir.blocks.map fun block =>
      transferStatements block.statements ∅ ∪ block.terminator.edgeLocals).foldr (· ∪ ·) ∅

def definitionFuel (hir : HirModule) : Nat :=
  DefiniteFlow.enough (hir.blocks.map fun block => block.id) hir.definableLocals

/-- The functions one after the other, each from its entry with its parameters. -/
def solveDefinitions (hir : HirModule) : List HirFunction →
    DefiniteFlow.State BlockId LocalId →
    Option (Except DefinitionFailure (DefiniteFlow.State BlockId LocalId))
  | [], state => some (.ok state)
  | function :: rest, state =>
      match DefiniteFlow.run (visitDefinitions hir) (definitionFuel hir)
          (state.seed function.entry function.params.toFinset) with
      | none => none
      | some (.error failure) => some (.error failure)
      | some (.ok solved) => solveDefinitions hir rest solved

/-- The blocks in storage order; a block that no function reaches is not checked. -/
def validateReads (hir : HirModule) (incoming : BlockId → Option Definitions) :
    List HirBlock → Except DefinitionFailure Unit
  | [] => .ok ()
  | block :: rest =>
      match incoming block.id with
      | none => validateReads hir incoming rest
      | some defined => do
          validateBlockReads hir.expressions block.terminator block.statements defined
          validateReads hir incoming rest

/-- `none` would be a solver that does not end. -/
def validateFunctionDefinitions (hir : HirModule) : Option (Except DefinitionFailure Unit) :=
  match solveDefinitions hir hir.functions .empty with
  | none => none
  | some (.error failure) => some (.error failure)
  | some (.ok solved) => some (validateReads hir solved.incoming hir.blocks)

end Moth.Hir
