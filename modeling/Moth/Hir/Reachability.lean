import Moth.Hir.LinkFacts
import Moth.Lib.BinarySearch

/-!
# Reachability from roots

`hir/reachability.rs`, second half: the union of the retained facts that a
list of root functions reaches, and the check of a selection against the
module it was made for.
-/

namespace Moth.Hir

open Moth.Lib Moth.Source

namespace HirModuleLinkFacts

variable (self : HirModuleLinkFacts)

def factsFor (functionId : FunctionId) : Option HirFunctionLinkFacts :=
  binarySearchByKey (fun facts => facts.functionId.index) self.functions functionId.index

def factsForBlock (blockId : BlockId) : Option HirBlockLinkFacts :=
  binarySearchByKey (fun facts => facts.blockId.index) self.blocks blockId.index

end HirModuleLinkFacts

structure ReachableProjectContextFunction where
  functionId : FunctionId
  syntheticInterfaceProvenance : SyntheticInterfaceProvenance
  declarationSpan : Option SourceSpan

structure HirSelectedFunctionBlocks where
  functionId : FunctionId
  blocks : List BlockId

structure HirBackendSelection where
  functions : Finset FunctionId
  blocks : Finset BlockId
  blocksByFunction : List HirSelectedFunctionBlocks

/-- The reached uses: sets of call targets, and vectors of everything else. -/
structure ReachedUses where
  reachableCrossModuleFunctions : Finset Nat
  reachableModulePrivateFunctions : Finset Nat
  reachableGeneratedFunctions : Finset Nat
  reachableExternalFunctions : Finset Nat
  reachableExternalCalls : List ReachableExternalCall
  reachableMapUses : List ReachableMapUse
  reachableResourceUses : List ReachableResourceUse
  reachableSiteRootUses : List ReachableSiteRootUse
  reachableRuntimeCasts : List ReachableRuntimeCastUse
  reachableNumericOps : List ReachableNumericOpUse
  reachableLoopStepFailures : List ReachableLoopStepFailureUse
  reachableFloatStatements : List ReachableFloatStatementUse
  reachableAssertionMessages : List ReachableAssertionMessageUse

def ReachedUses.empty : ReachedUses := ⟨∅, ∅, ∅, ∅, [], [], [], [], [], [], [], [], []⟩

def ReachedUses.merge (self : ReachedUses) (direct : RuntimeUses) : ReachedUses where
  reachableCrossModuleFunctions :=
    self.reachableCrossModuleFunctions ∪ direct.directCrossModuleCalls.toFinset
  reachableModulePrivateFunctions :=
    self.reachableModulePrivateFunctions ∪ direct.directModulePrivateCalls.toFinset
  reachableGeneratedFunctions :=
    self.reachableGeneratedFunctions ∪ direct.directGeneratedCalls.toFinset
  reachableExternalFunctions :=
    self.reachableExternalFunctions ∪ direct.reachableExternalFunctions
  reachableExternalCalls := self.reachableExternalCalls ++ direct.reachableExternalCalls
  reachableMapUses := self.reachableMapUses ++ direct.reachableMapUses
  reachableResourceUses := self.reachableResourceUses ++ direct.reachableResourceUses
  reachableSiteRootUses := self.reachableSiteRootUses ++ direct.reachableSiteRootUses
  reachableRuntimeCasts := self.reachableRuntimeCasts ++ direct.reachableRuntimeCasts
  reachableNumericOps := self.reachableNumericOps ++ direct.reachableNumericOps
  reachableLoopStepFailures := self.reachableLoopStepFailures ++ direct.reachableLoopStepFailures
  reachableFloatStatements := self.reachableFloatStatements ++ direct.reachableFloatStatements
  reachableAssertionMessages :=
    self.reachableAssertionMessages ++ direct.reachableAssertionMessages

structure HirReachability where
  uses : ReachedUses
  reachableFunctionProvenance : SyntheticInterfaceProvenance
  firstProjectContextFunction : Option ReachableProjectContextFunction
  backendSelection : HirBackendSelection

/-! ## The union -/

/-- The state of the union; `blocksByFunction` is a map with a default of no blocks. -/
structure UnionState where
  functionWorklist : List FunctionId
  blockWorklist : List BlockId
  visitedFunctions : Finset FunctionId
  visitedFunctionOrder : List FunctionId
  visitedBlocks : Finset BlockId
  blocksByFunction : FunctionId → List BlockId
  uses : ReachedUses
  reachableFunctionProvenance : SyntheticInterfaceProvenance
  firstProjectContextFunction : Option ReachableProjectContextFunction

def UnionState.start (rootFunctions : List FunctionId) : UnionState :=
  ⟨rootFunctions, [], ∅, [], ∅, fun _ => [], .empty, ∅, none⟩

section Union

variable (functionFacts : HirModuleLinkFacts)

def visitFunction (functionId : FunctionId) (state : UnionState) :
    Except HirReachabilityError UnionState :=
  if functionId ∈ state.visitedFunctions then .ok state
  else
    match functionFacts.factsFor functionId with
    | none => .error (.missingFunctionFacts functionId)
    | some function => .ok { state with
        visitedFunctions := insert functionId state.visitedFunctions
        visitedFunctionOrder := state.visitedFunctionOrder ++ [functionId]
        firstProjectContextFunction :=
          if state.firstProjectContextFunction.isNone &&
              containsClass function.syntheticInterfaceProvenance .ProjectContext then
            some ⟨functionId, function.syntheticInterfaceProvenance, function.declarationSpan⟩
          else state.firstProjectContextFunction
        reachableFunctionProvenance :=
          state.reachableFunctionProvenance ∪ function.syntheticInterfaceProvenance
        blockWorklist := state.blockWorklist ++ [function.entryBlock] }

/-- The worklist of functions until it is empty; visiting one adds none. -/
def drainFunctions : List FunctionId → UnionState → Except HirReachabilityError UnionState
  | [], state => .ok state
  | functionId :: rest, state => do
      drainFunctions rest (← visitFunction functionFacts functionId state)

def visitSelectedBlock (blockId : BlockId) (state : UnionState) :
    Except HirReachabilityError UnionState :=
  if blockId ∈ state.visitedBlocks then .ok state
  else
    match functionFacts.factsForBlock blockId with
    | none => .error (.missingBlockFacts blockId)
    | some block =>
        if block.functionId ∉ state.visitedFunctions then
          .error (.reachedBeforeOwner blockId block.functionId)
        else
          let visitedBlocks := insert blockId state.visitedBlocks
          .ok { state with
            visitedBlocks
            blocksByFunction := Function.update state.blocksByFunction block.functionId
              (state.blocksByFunction block.functionId ++ [blockId])
            uses := state.uses.merge block.directUses
            functionWorklist := state.functionWorklist ++
              block.directUserCalls.filter fun called => decide (called ∉ state.visitedFunctions)
            blockWorklist := state.blockWorklist ++
              block.successorBlocks.filter fun successor => decide (successor ∉ visitedBlocks) }

/-- The worklist of blocks until it is empty. -/
def drainBlocks : Nat → UnionState → Option (Except HirReachabilityError UnionState)
  | 0, _ => none
  | fuel + 1, state =>
      match state.blockWorklist with
      | [] => some (.ok state)
      | blockId :: rest =>
          match visitSelectedBlock functionFacts blockId { state with blockWorklist := rest } with
          | .error error => some (.error error)
          | .ok next => drainBlocks fuel next

/-- Functions, then blocks, until both worklists are empty. -/
def drainBoth : Nat → UnionState → Option (Except HirReachabilityError UnionState)
  | 0, _ => none
  | fuel + 1, state =>
      if state.functionWorklist.isEmpty && state.blockWorklist.isEmpty then some (.ok state)
      else
        match drainFunctions functionFacts state.functionWorklist
            { state with functionWorklist := [] } with
        | .error error => some (.error error)
        | .ok drained => do
            match ← drainBlocks functionFacts (fuel + 1) drained with
            | .error error => some (.error error)
            | .ok next => drainBoth fuel next

/-- Every entry of a worklist is a root, an entry block, or pushed by a block that is visited
once. -/
def HirModuleLinkFacts.unionFuel (roots : Nat) : Nat :=
  roots + 2 * functionFacts.functions.length +
    (functionFacts.blocks.map fun block =>
      block.directUserCalls.length + block.successorBlocks.length + 1).sum + 2

def UnionState.finish (state : UnionState) : HirReachability where
  uses := state.uses
  reachableFunctionProvenance := state.reachableFunctionProvenance
  firstProjectContextFunction := state.firstProjectContextFunction
  backendSelection := {
    functions := state.visitedFunctions
    blocks := state.visitedBlocks
    blocksByFunction := state.visitedFunctionOrder.map fun functionId =>
      ⟨functionId, (state.blocksByFunction functionId).mergeSort fun left right =>
        decide (left.index ≤ right.index)⟩ }

def collectReachabilityFromFunctionLinkFacts (rootFunctions : List FunctionId) :
    Option (Except HirReachabilityError HirReachability) :=
  (drainBoth functionFacts (functionFacts.unionFuel rootFunctions.length)
    (.start rootFunctions)).map fun result => result.map UnionState.finish

end Union

/-! ## Validation of a selection -/

namespace HirBackendSelection

variable (self : HirBackendSelection)

def blocksForFunction (functionId : FunctionId) : Option (List BlockId) :=
  (self.blocksByFunction.find? fun selection => selection.functionId = functionId).map
    HirSelectedFunctionBlocks.blocks

/-- One block of a selected function: not assigned yet, and calling selected functions only. -/
def validateBlock (hir : HirModule) (functionId : FunctionId) (assignedBlocks : Finset BlockId)
    (blockId : BlockId) : Except HirReachabilityError (Finset BlockId) :=
  if blockId ∈ assignedBlocks then .error (.assignedTwice blockId)
  else
    match hir.blockById blockId with
    | none => .error (.unknownBlock blockId)
    | some block =>
        match block.localCalls.find? fun callee => decide (callee ∉ self.functions) with
        | some callee => .error (.omittedCallee callee functionId)
        | none => .ok (insert blockId assignedBlocks)

def validateFunction (hir : HirModule) (assignedBlocks : Finset BlockId) (function : HirFunction) :
    Except HirReachabilityError (Finset BlockId) :=
  match self.blocksForFunction function.id with
  | none => .error (.unassignedFunction function.id)
  | some functionBlocks =>
      match hir.collectReachableBlocks function.entry with
      | none => .error (.unknownBlock function.entry)
      | some actualBlocks =>
          if (actualBlocks.mergeSort fun left right => decide (left.index ≤ right.index)) ≠
              functionBlocks then
            .error (.blockMismatch function.id)
          else functionBlocks.foldlM (self.validateBlock hir function.id) assignedBlocks

def validateForHir (hir : HirModule) : Except HirReachabilityError Unit := do
  reachabilityIndex hir
  let selectedFunctions := hir.functions.filter fun function =>
    decide (function.id ∈ self.functions)
  if selectedFunctions.length ≠ self.functions.card then .error .unknownSelectedFunction
  else
    let assignedBlocks ← selectedFunctions.foldlM (self.validateFunction hir) ∅
    if assignedBlocks ≠ self.blocks then .error .unassignedBlock
    else .ok ()

end HirBackendSelection

end Moth.Hir
