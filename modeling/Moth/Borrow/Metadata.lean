import Mathlib.Data.List.Sort
import Mathlib.Data.Finset.Union
import Moth.Borrow.Layout
import Moth.Lib.Sweep

/-!
# Building a function layout

`build_function_layout` and its helpers in `metadata.rs`. The blocks given are
the reachable ones in the order their order keys are handed out. Each
statement takes the next key; what it writes and loads raises the last and the
largest use of those locals to that key, and its contribution to the block's
liveness is recorded. A compiler temporary that is assigned from a direct load
carries its source: uses of the carrier count as uses of every local in its
closed source relation.
-/

namespace Moth.Borrow

open Moth.Hir Moth.Lib

/-! ## What a statement or terminator loads, writes and defines -/

def visitExpressionRead (store : HirExpressionStore) (id : HirValueId) : List LocalId :=
  match (store.expression id).kind with
  | .Load place | .Copy place => [place.root]
  | _ => []

/-- Every local read by one expression tree, each node before its children. -/
def collectExpressionLoadedLocals (store : HirExpressionStore) (id : HirValueId) :
    List LocalId :=
  visitExpressionRead store id ++
    (store.childValues id).attach.flatMap fun child =>
      collectExpressionLoadedLocals store child.1
termination_by store.rank id
decreasing_by exact store.rank_child id child.1 child.2

def collectStatementLoadedLocals (store : HirExpressionStore) (statement : HirStatement) :
    List LocalId :=
  let loaded := collectExpressionLoadedLocals store
  match statement.kind with
  | .Write target value =>
      (match target with
        | .AssignPlace place => place.indexValues.flatMap loaded
        | .DefineLocal _ => []) ++ loaded value
  | .Call _ args _ => args.flatMap loaded
  | .MapOp _ receiver args _ => loaded receiver ++ args.flatMap loaded
  | .NumericOp _ _ operands _ =>
      match operands with
      | .Unary operand => loaded operand
      | .Binary left right => loaded left ++ loaded right
  | .RangeCandidate current step last _ _ _ _ => loaded current ++ loaded step ++ loaded last
  | .FormatFloat source _ _ => loaded source
  | .ValidateFloat source _ _ => loaded source
  | .Expr value => loaded value
  | .LoopStepFailure _ _ _ => []
  | .PushRuntimeFragment vecLocal value => vecLocal :: loaded value

def collectStatementWrittenLocals (statement : HirStatement) : List LocalId :=
  match statement.kind with
  | .Write (.DefineLocal target) _ => [target]
  | .Write (.AssignPlace place) _ => [place.root]
  | .Call _ _ results => results.map fun result => result.localId
  | .MapOp _ _ _ (some result) => [result.localId]
  | .NumericOp _ _ _ result => [result.localId]
  | .LoopStepFailure _ _ result => [result.localId]
  | .RangeCandidate _ _ _ _ _ candidateResult inRangeResult =>
      [candidateResult.localId, inRangeResult.localId]
  | .FormatFloat _ _ result => [result.localId]
  | .ValidateFloat _ _ result => [result.localId]
  | .MapOp _ _ _ none => []
  | .Expr _ => []
  | .PushRuntimeFragment _ _ => []

/-- The local a destination defines; an update defines none. -/
def visitDestination : HirLocalDestination → List LocalId
  | .Define target => [target]
  | .Update _ => []

def collectStatementDefinedLocals (statement : HirStatement) : List LocalId :=
  match statement.kind with
  | .Write (.DefineLocal target) _ => [target]
  | .Call _ _ results => results.flatMap visitDestination
  | .MapOp _ _ _ (some result) => visitDestination result
  | .NumericOp _ _ _ result => visitDestination result
  | .LoopStepFailure _ _ result => visitDestination result
  | .FormatFloat _ _ result => visitDestination result
  | .ValidateFloat _ _ result => visitDestination result
  | .RangeCandidate _ _ _ _ _ candidateResult inRangeResult =>
      visitDestination candidateResult ++ visitDestination inRangeResult
  | .MapOp _ _ _ none => []
  | .Write (.AssignPlace _) _ => []
  | .Expr _ => []
  | .PushRuntimeFragment _ _ => []

/-- Jump argument passing is not a semantic use, so a jump loads nothing here. -/
def collectTerminatorLoadedLocals (store : HirExpressionStore) (terminator : HirTerminator) :
    List LocalId :=
  let loaded := collectExpressionLoadedLocals store
  match terminator with
  | .If condition _ _ => loaded condition
  | .Invoke _ operation _ _ _ _ => operation.operands.flatMap loaded
  | .Match scrutinee arms =>
      loaded scrutinee ++ arms.flatMap fun arm =>
        arm.pattern.value.toList.flatMap loaded ++ arm.guard.toList.flatMap loaded
  | .Return values => values.flatMap loaded
  | .ReturnError value => loaded value
  | .AssertFailure message => loaded message
  | .Jump _ _ | .RuntimeFailure _ | .Uninitialized | .Break _ | .Continue _ => []

/-! ## Block liveness -/

/-- Per-block read liveness and direct-assignment facts. -/
structure BlockLiveness (n : Nat) where
  upwardExposedReads : RootSet n
  definitions : RootSet n
  directAssignments : RootSet n
deriving DecidableEq

namespace BlockLiveness

variable {n : Nat}

def new (n : Nat) : BlockLiveness n := ⟨∅, ∅, ∅⟩

/-- A read that follows a definition in the block observes the new value. -/
def recordRead (self : BlockLiveness n) (i : Fin n) : BlockLiveness n :=
  if i ∈ self.definitions then self
  else { self with upwardExposedReads := insert i self.upwardExposedReads }

def recordDefinition (self : BlockLiveness n) (i : Fin n) : BlockLiveness n :=
  { self with definitions := insert i self.definitions }

def recordDirectAssignment (self : BlockLiveness n) (i : Fin n) : BlockLiveness n :=
  { self with directAssignments := insert i self.directAssignments }

end BlockLiveness

/-- The local a write replaces whole; `none` for a projected place. -/
def directWriteLocal : HirStatementKind → Option LocalId
  | .Write (.DefineLocal target) _ => some target
  | .Write (.AssignPlace place) _ => if place.projections = [] then some place.root else none
  | _ => none

section Scan

variable (hir : HirModule) {n : Nat} (localIds : Fin n → LocalId)

/-- Call a visitor with the index of every local of a list that has one. -/
def visitLocals {α : Type} (visitor : α → Fin n → α) (start : α) (locals : List LocalId) : α :=
  locals.foldl (fun acc target =>
    match indexIn localIds target with
    | some i => visitor acc i
    | none => acc) start

/-- One statement's contribution to its block's liveness facts. -/
def recordStatementLiveness (liveness : BlockLiveness n) (statement : HirStatement) :
    BlockLiveness n :=
  let assigned := visitLocals localIds BlockLiveness.recordDirectAssignment liveness
    (directWriteLocal statement.kind).toList
  let read := visitLocals localIds BlockLiveness.recordRead assigned
    (collectStatementLoadedLocals hir.expressions statement)
  -- a write that defines nothing leaves the old value observable, so it counts as a read
  let updated := visitLocals localIds BlockLiveness.recordRead read
    ((collectStatementWrittenLocals statement).filter fun target =>
      target ∉ collectStatementDefinedLocals statement)
  visitLocals localIds BlockLiveness.recordDefinition updated
    (collectStatementDefinedLocals statement)

/-! ## Compiler alias carriers -/

/-- A compiler temporary assigned whole from a direct load, with the load's root. -/
def compilerAliasSource (statement : HirStatement) : Option (LocalId × LocalId) :=
  match directWriteLocal statement.kind, statement.kind with
  | some target, .Write _ value =>
      if hir.localOriginKind target = some .CompilerTemp then
        match (hir.expressions.expression value).kind with
        | .Load place =>
            if (hir.expressions.expression value).valueKind = .Place then some (target, place.root)
            else none
        | _ => none
      else none
  | _, _ => none

/-- The direct carrier relation of the given statements. -/
def directSourceRoots (statements : List HirStatement) : Fin n → RootSet n :=
  statements.foldl (fun rows statement =>
    match compilerAliasSource hir statement with
    | some (target, source) =>
        match indexIn localIds target, indexIn localIds source with
        | some t, some s => Function.update rows t (insert s (rows t))
        | _, _ => rows
    | none => rows) fun _ => ∅

/-- One target's sources with the sources of those. -/
def closeSources (target : Fin n) (rows : Fin n → RootSet n) : RootSet n :=
  rows target ∪ (rows target).biUnion rows

/-- The closed carrier relation. -/
def compilerAliasSourceRoots (statements : List HirStatement) : Option (Fin n → RootSet n) :=
  sweepUntilStable closeSources (List.finRange n)
    ((Ascent.growing (Fin n)).sweepBound (List.finRange n))
    (directSourceRoots hir localIds statements)

/-! ## The scan over the reachable blocks -/

/-- The running order facts of the function and of the block being scanned. -/
structure BlockScan (n : Nat) where
  nextOrderKey : Int
  localFirstWriteOrder : Fin n → Int
  localLastUseOrder : Fin n → Int
  statementOrderById : HirNodeId → Option Int
  maxUseOrder : Fin n → Int
  liveness : BlockLiveness n

namespace BlockScan

variable {n : Nat}

/-- Give the next key to a statement. -/
def takeKey (self : BlockScan n) (statement : HirNodeId) : BlockScan n :=
  { self with
    nextOrderKey := self.nextOrderKey + 1
    statementOrderById :=
      Function.update self.statementOrderById statement (some self.nextOrderKey) }

/-- Raise the last and the largest use of a local to a key. -/
def noteUse (orderKey : Int) (self : BlockScan n) (i : Fin n) : BlockScan n :=
  { self with
    localLastUseOrder :=
      Function.update self.localLastUseOrder i (max (self.localLastUseOrder i) orderKey)
    maxUseOrder := Function.update self.maxUseOrder i (max (self.maxUseOrder i) orderKey) }

/-- Lower the first write of a local to a key. -/
def noteFirstWrite (orderKey : Int) (self : BlockScan n) (i : Fin n) : BlockScan n :=
  if self.localFirstWriteOrder i < 0 ∨ orderKey < self.localFirstWriteOrder i then
    { self with localFirstWriteOrder := Function.update self.localFirstWriteOrder i orderKey }
  else self

/-- The first write of a local that a terminator binds. -/
def noteTerminatorWrite (orderKey : Int) (self : BlockScan n) (i : Fin n) : BlockScan n :=
  if self.localFirstWriteOrder i < 0 then
    { self with localFirstWriteOrder := Function.update self.localFirstWriteOrder i orderKey }
  else self

def noteWrite (orderKey : Int) (self : BlockScan n) (i : Fin n) : BlockScan n :=
  (self.noteFirstWrite orderKey i).noteUse orderKey i

def noteRead (self : BlockScan n) (i : Fin n) : BlockScan n :=
  { self with liveness := self.liveness.recordRead i }

def noteDefinition (self : BlockScan n) (i : Fin n) : BlockScan n :=
  { self with liveness := self.liveness.recordDefinition i }

end BlockScan

/-- The statement's writes and loads are uses at its key. -/
def noteStatement (self : BlockScan n) (statement : HirStatement) : BlockScan n :=
  let orderKey := self.nextOrderKey
  let written := visitLocals localIds (BlockScan.noteWrite orderKey) (self.takeKey statement.id)
    (collectStatementWrittenLocals statement)
  visitLocals localIds (BlockScan.noteUse orderKey) written
    (collectStatementLoadedLocals hir.expressions statement)

def scanStatement (self : BlockScan n) (statement : HirStatement) : BlockScan n :=
  let noted := noteStatement hir localIds self statement
  { noted with liveness := recordStatementLiveness hir localIds noted.liveness statement }

/-- Carry the uses of every carrier back to its sources. -/
def carryUses (sourceRoots : Fin n → RootSet n) (self : BlockScan n) : BlockScan n :=
  (List.finRange n).foldl (fun acc target =>
    let targetUseOrder := acc.maxUseOrder target
    if targetUseOrder < 0 then acc
    else (sourceRoots target).iterOnes.foldl (BlockScan.noteUse targetUseOrder) acc) self

/-- The terminator's reads, then what it binds. -/
def scanTerminator (terminatorOrder : Int) (self : BlockScan n) (terminator : HirTerminator) :
    BlockScan n :=
  let loaded := visitLocals localIds
    (fun acc i => (acc.noteUse terminatorOrder i).noteRead i)
    { self with nextOrderKey := terminatorOrder + 1 }
    (collectTerminatorLoadedLocals hir.expressions terminator)
  match terminator with
  | .Jump _ args =>
      let transported := visitLocals localIds
        (fun acc i => (acc.noteRead i).noteUse terminatorOrder i) loaded
        (args.map fun argument => argument.source)
      visitLocals localIds (fun acc i => (acc.noteDefinition i).noteTerminatorWrite terminatorOrder i)
        transported (args.map fun argument => argument.destination)
  | .Invoke _ _ _ successResults _ errorResult =>
      visitLocals localIds (fun acc i => (acc.noteDefinition i).noteTerminatorWrite terminatorOrder i)
        loaded (successResults ++ [errorResult])
  | _ => loaded

/-- Reads of a carrier are reads of its sources, whatever the block defines. -/
def carryReads (sourceRoots : Fin n → RootSet n) (liveness : BlockLiveness n) :
    BlockLiveness n :=
  (List.finRange n).foldl (fun acc carrier =>
    if carrier ∈ acc.upwardExposedReads then
      { acc with upwardExposedReads := acc.upwardExposedReads ∪ sourceRoots carrier }
    else acc) liveness

/-- The maps of the layout under construction. -/
structure LayoutScan (n : Nat) where
  nextOrderKey : Int
  localFirstWriteOrder : Fin n → Int
  localLastUseOrder : Fin n → Int
  statementOrderById : HirNodeId → Option Int
  terminatorOrderByBlock : BlockId → Option Int
  blockLocalMaxUseOrder : BlockId → Option (Fin n → Int)
  blockSuccessors : BlockId → Option (List BlockId)
  blockLiveness : BlockId → Option (BlockLiveness n)

def LayoutScan.new (n : Nat) : LayoutScan n where
  nextOrderKey := 0
  localFirstWriteOrder _ := -1
  localLastUseOrder _ := -1
  statementOrderById _ := none
  terminatorOrderByBlock _ := none
  blockLocalMaxUseOrder _ := none
  blockSuccessors _ := none
  blockLiveness _ := none

/-- The statements and the terminator of one block, from the function's running facts. -/
def scanBlockBody (sourceRoots : Fin n → RootSet n) (self : LayoutScan n) (block : HirBlock) :
    Int × BlockScan n :=
  let entered : BlockScan n := {
    nextOrderKey := self.nextOrderKey
    localFirstWriteOrder := self.localFirstWriteOrder
    localLastUseOrder := self.localLastUseOrder
    statementOrderById := self.statementOrderById
    maxUseOrder := fun _ => -1
    liveness := .new n }
  let statements := block.statements.foldl (scanStatement hir localIds) entered
  let carried := carryUses sourceRoots statements
  (carried.nextOrderKey,
    scanTerminator hir localIds carried.nextOrderKey carried block.terminator)

def scanBlock (reachable : List BlockId) (sourceRoots : Fin n → RootSet n)
    (self : LayoutScan n) (block : HirBlock) : LayoutScan n :=
  let (terminatorOrder, scanned) := scanBlockBody hir localIds sourceRoots self block
  { nextOrderKey := scanned.nextOrderKey
    localFirstWriteOrder := scanned.localFirstWriteOrder
    localLastUseOrder := scanned.localLastUseOrder
    statementOrderById := scanned.statementOrderById
    terminatorOrderByBlock :=
      Function.update self.terminatorOrderByBlock block.id (some terminatorOrder)
    blockLocalMaxUseOrder :=
      Function.update self.blockLocalMaxUseOrder block.id (some scanned.maxUseOrder)
    blockSuccessors := Function.update self.blockSuccessors block.id
      (some (block.terminator.targets.filter fun successor => successor ∈ reachable))
    blockLiveness := Function.update self.blockLiveness block.id
      (some (carryReads sourceRoots scanned.liveness)) }

end Scan

/-! ## Propagation -/

inductive BlockPropagation where
  | AnyPath
  | EveryPath
  | AnyAssignment
deriving DecidableEq

/-- The successors' facts combined; a successor outside the table guarantees nothing. -/
def combineSuccessorFacts {n : Nat} (reachable successors : List BlockId)
    (liveIn : BlockId → RootSet n) (propagation : BlockPropagation) : RootSet n :=
  if successors = [] then ∅
  else
    match propagation with
    | .AnyPath | .AnyAssignment =>
        successors.foldl (fun union successor =>
          if successor ∈ reachable then union ∪ liveIn successor else union) ∅
    | .EveryPath =>
        if ∃ successor ∈ successors, successor ∉ reachable then ∅
        else successors.foldl (fun intersection successor => intersection ∩ liveIn successor)
          Finset.univ

/-- The recomputed fact of one block. -/
def blockTransfer {n : Nat} (reachable : List BlockId)
    (blockSuccessors : BlockId → Option (List BlockId))
    (blockLiveness : BlockId → Option (BlockLiveness n))
    (visibleLocalsByBlock : BlockId → Option (RootSet n)) (propagation : BlockPropagation)
    (block : BlockId) (liveIn : BlockId → RootSet n) : RootSet n :=
  let next := combineSuccessorFacts reachable ((blockSuccessors block).getD []) liveIn propagation
  match blockLiveness block with
  | none => next
  | some liveness =>
      match propagation with
      | .AnyPath | .EveryPath => (next \ liveness.definitions) ∪ liveness.upwardExposedReads
      | .AnyAssignment =>
          let assigned := next ∪ liveness.directAssignments
          match visibleLocalsByBlock block with
          | some mask => assigned ∩ mask
          | none => assigned

/-- Backward propagation over the reachable blocks, last block first. -/
def propagateBlockFacts {n : Nat} (reachable : List BlockId)
    (blockSuccessors : BlockId → Option (List BlockId))
    (blockLiveness : BlockId → Option (BlockLiveness n))
    (visibleLocalsByBlock : BlockId → Option (RootSet n)) (propagation : BlockPropagation) :
    Option (BlockId → Option (RootSet n)) :=
  let seed : RootSet n :=
    match propagation with
    | .AnyPath | .AnyAssignment => ∅
    | .EveryPath => Finset.univ
  let transfer := blockTransfer reachable blockSuccessors blockLiveness visibleLocalsByBlock
    propagation
  (sweepUntilStable transfer reachable.reverse
    ((Ascent.growing (Fin n)).sweepBound reachable.reverse) fun _ => seed).map
    fun liveIn block => if block ∈ reachable then some (liveIn block) else none

/-! ## The layout -/

/-- Walk parent links from a region to the root; `none` for a missing or a cyclic parent. -/
def isRegionAncestorOf (hir : HirModule) (ancestor : RegionId) : Nat → RegionId → Option Bool
  | 0, _ => none
  | fuel + 1, region =>
      if region = ancestor then some true
      else
        match hir.regions.find? fun known => known.id = region with
        | none => none
        | some known =>
            match known.parent with
            | none => some false
            | some parent => isRegionAncestorOf hir ancestor fuel parent

/-- The visible locals of each block; `none` where a region does not resolve. -/
def buildVisibilityMask (hir : HirModule) {n : Nat} (localRegions : Fin n → RegionId)
    (block : HirBlock) : Option (RootSet n) :=
  (List.finRange n).foldlM (fun (mask : RootSet n) i => do
    let visible ← isRegionAncestorOf hir (localRegions i) (hir.regions.length + 1) block.region
    return if visible then insert i mask else mask) ∅

def buildVisibilityMasks (hir : HirModule) {n : Nat} (localRegions : Fin n → RegionId)
    (blocks : List HirBlock) : Option (BlockId → Option (RootSet n)) :=
  blocks.foldlM (fun (masks : BlockId → Option (RootSet n)) block => do
    let mask ← buildVisibilityMask hir localRegions block
    return Function.update masks block.id (some mask)) fun _ => none

/-- The locals declared in the blocks, each id once, in ascending order. -/
def layoutLocalIds (blocks : List HirBlock) : List LocalId :=
  ((blocks.flatMap fun block => block.locals).map fun declared => declared.id).dedup.insertionSort
    fun a b => a.index ≤ b.index

/-- The declaration of a local; a later one of the same id replaces an earlier one. -/
def localInfo (blocks : List HirBlock) (target : LocalId) : Option HirLocal :=
  (blocks.flatMap fun block => block.locals).reverse.find? fun declared => declared.id = target

/-- `build_function_layout`, over the resolved reachable blocks. -/
def buildFunctionLayout (hir : HirModule) (function : HirFunction) (blocks : List HirBlock) :
    Option (FunctionLayout (layoutLocalIds blocks).length) := do
  if ∃ param ∈ function.params, param ∉ layoutLocalIds blocks then none
  else
    let localIds := (layoutLocalIds blocks).get
    let localMutable := fun i => ((localInfo blocks (localIds i)).map (·.isMutable)).getD false
    let localRegions := fun i => ((localInfo blocks (localIds i)).map (·.region)).getD ⟨0⟩
    let reachable := blocks.map fun block => block.id
    let sourceRoots ← compilerAliasSourceRoots hir localIds
      (blocks.flatMap fun block => block.statements)
    let scan := blocks.foldl (scanBlock hir localIds reachable sourceRoots) (.new _)
    let visibleLocalsByBlock ← buildVisibilityMasks hir localRegions blocks
    let propagate := propagateBlockFacts reachable scan.blockSuccessors scan.blockLiveness
      visibleLocalsByBlock
    let mayUseFromBlock ← propagate .AnyPath
    let mustUseFromBlock ← propagate .EveryPath
    let mayAssignFromBlock ← propagate .AnyAssignment
    return {
      localIds
      localMutable
      localFirstWriteOrder := scan.localFirstWriteOrder
      localLastUseOrder := scan.localLastUseOrder
      statementOrderById := scan.statementOrderById
      terminatorOrderByBlock := scan.terminatorOrderByBlock
      blockLocalMaxUseOrder := scan.blockLocalMaxUseOrder
      blockSuccessors := scan.blockSuccessors
      visibleLocalsByBlock
      mayUseFromBlock
      mustUseFromBlock
      mayAssignFromBlock }

/-- A function's reachable blocks with the layout built from them. -/
structure AnalysedFunction where
  blocks : List HirBlock
  layout : FunctionLayout (layoutLocalIds blocks).length

def analysedFunction (hir : HirModule) (function : HirFunction) : Option AnalysedFunction := do
  let reachable ← hir.collectReachableBlocks function.entry
  let blocks ← reachable.mapM hir.blockById
  let layout ← buildFunctionLayout hir function blocks
  return ⟨blocks, layout⟩

end Moth.Borrow
