import Moth.Borrow.Conflicts
import Moth.Borrow.Metadata
import Moth.Borrow.StateOrder
import Moth.Lib.Worklist

/-!
# The fixed-point engine

`analyze_function` of `engine.rs`: a forward worklist over the reachable
blocks of one function. The transfer of a block is a parameter; what an edge
does to the state that leaves the block (an invoke retires the old outcomes
and installs the captured ones, a jump moves its arguments, the successor's
visibility narrows the rest) is the engine's own.

The facts of a visit overwrite those of earlier visits: statement facts by
statement, the terminator's by block, value facts by block until the end,
where the blocks' value facts are merged by value. The work counters and the
developer snapshots are left out.
-/

namespace Moth.Borrow

open Moth.Hir Moth.Lib

/-! ## Facts -/

structure StatementBorrowFact where
  sharedRoots : List LocalId
  mutableRoots : List LocalId
deriving DecidableEq

structure TerminatorBorrowFact where
  sharedRoots : List LocalId
  mutableRoots : List LocalId
deriving DecidableEq

inductive OptionalTransferStatus where
  | NotAttempted
  | Borrow
  | Transfer
deriving DecidableEq

/-- Observations from distinct completed uses: one without a proof declines the transfer. -/
def OptionalTransferStatus.mergeCompletedUse :
    OptionalTransferStatus → OptionalTransferStatus → OptionalTransferStatus
  | .NotAttempted, .NotAttempted => .NotAttempted
  | .Transfer, .Transfer => .Transfer
  | _, _ => .Borrow

/-- Evidence within one use: an empty accumulator stays neutral. -/
def OptionalTransferStatus.merge :
    OptionalTransferStatus → OptionalTransferStatus → OptionalTransferStatus
  | .NotAttempted, status | status, .NotAttempted => status
  | .Transfer, .Transfer => .Transfer
  | _, _ => .Borrow

inductive ValueAccessClassification where
  | None
  | SharedRead
  | MutableArgument
  | Mixed
deriving DecidableEq

def ValueAccessClassification.merge :
    ValueAccessClassification → ValueAccessClassification → ValueAccessClassification
  | .None, other | other, .None => other
  | .SharedRead, .SharedRead => .SharedRead
  | .MutableArgument, .MutableArgument => .MutableArgument
  | _, _ => .Mixed

structure ValueBorrowFact where
  classification : ValueAccessClassification
  roots : List LocalId
  optionalTransfer : OptionalTransferStatus
deriving DecidableEq

/-- Facts of distinct final contexts that share one value row. -/
def ValueBorrowFact.merge (self other : ValueBorrowFact) : ValueBorrowFact where
  classification := self.classification.merge other.classification
  roots := ((self.roots ++ other.roots).insertionSort fun a b => a.index ≤ b.index).dedup
  optionalTransfer := self.optionalTransfer.mergeCompletedUse other.optionalTransfer

/-- The facts of one visit of a block, and the results its invoke captured. -/
structure BlockTransferStats (n : Nat) where
  statementFacts : List (HirNodeId × StatementBorrowFact)
  terminatorFact : Option (BlockId × TerminatorBorrowFact)
  valueFacts : List (HirValueId × ValueBorrowFact)
  invokeResults : List (LocalId × LocalState n)
deriving DecidableEq

/-- The state that leaves a block, with the facts of the visit. -/
structure BlockOutput (n : Nat) where
  outputState : BorrowState n
  stats : BlockTransferStats n
deriving DecidableEq

/-- The transfer of one block. -/
abbrev BlockTransfer (n : Nat) : Type :=
  HirBlock → BorrowState n → Except BorrowCheckError (BlockOutput n)

/-! ## Edges -/

section Edges

variable {n : Nat} (localIds : Fin n → LocalId)

/-- Write rows to the locals of a list that have an index. -/
def installRows (state : BorrowState n) (rows : List (LocalId × LocalState n)) : BorrowState n :=
  rows.foldl (fun acc row =>
    match indexIn localIds row.1 with
    | some i => acc.updateLocalState i row.2
    | none => acc) state

/-- Retire both previous outcomes before installing the captured results. -/
def applyInvokeEdgeTransfer (terminator : HirTerminator) (successor : BlockId)
    (operationResults : List (LocalId × LocalState n)) (edgeState : BorrowState n) :
    BorrowState n :=
  match terminator with
  | .Invoke _ _ success successResults failure errorResult =>
      let retired := installRows localIds edgeState
        ((successResults ++ [errorResult]).map fun target => (target, LocalState.uninit n))
      if successor = success then installRows localIds retired operationResults
      else if successor = failure then
        installRows localIds retired [(errorResult, LocalState.slot n)]
      else retired
  | _ => edgeState

/-- The binding slot that a jump argument enters: it keeps the provenance of the source. -/
def jumpArgumentRow (state : BorrowState n) (source : Fin n) : LocalState n :=
  if (state.localState source).mode.isDefinitelyUninit then .uninit n
  else .slotWithValueRoots (state.effectiveRoots source) (state.localState source).directAliasRoots

/-- All arguments are read before the first destination is written. -/
def applyJumpArgumentTransfer (hir : HirModule) (terminator : HirTerminator)
    (successor : BlockId) (state : BorrowState n) : Except BorrowCheckError (BorrowState n) :=
  match terminator with
  | .Jump target args =>
      if target ≠ successor ∨ args = [] then .ok state
      else do
        let rows ← args.mapM fun argument =>
          match indexIn localIds argument.source with
          | some source => .ok (jumpArgumentRow state source)
          | none => .error .Infrastructure
        let block ← (hir.blockById successor).elim (.error .Infrastructure) .ok
        let destinations ← args.mapM fun argument =>
          if block.locals.any fun declared => declared.id = argument.destination then
            match indexIn localIds argument.destination with
            | some destination => .ok destination
            | none => .error .Infrastructure
          else .error .Infrastructure
        return (destinations.zip rows).foldl (fun acc row => acc.updateLocalState row.1 row.2) state
  | _ => .ok state

/-- What one edge carries into its successor. -/
def edgeState (hir : HirModule) (visibleLocalsByBlock : BlockId → Option (RootSet n))
    (block : HirBlock) (output : BlockOutput n) (successor : BlockId) :
    Except BorrowCheckError (BorrowState n) := do
  let invoked := applyInvokeEdgeTransfer localIds block.terminator successor
    output.stats.invokeResults output.outputState
  let jumped ← applyJumpArgumentTransfer localIds hir block.terminator successor invoked
  match visibleLocalsByBlock successor with
  | some mask => return jumped.killInvisible mask
  | none => return jumped

end Edges

/-! ## The loop -/

/-- The facts of the report, and the value facts of the function's blocks so far. -/
structure BorrowFacts where
  statementFacts : HirNodeId → Option StatementBorrowFact
  terminatorFacts : BlockId → Option TerminatorBorrowFact
  valueFacts : HirValueId → Option ValueBorrowFact
  finalValueFactsByBlock : BlockId → Option (List (HirValueId × ValueBorrowFact))

/-- Insert the facts of one visit. -/
def BorrowFacts.record {n : Nat} (self : BorrowFacts) (block : BlockId) (output : BlockOutput n) :
    BorrowFacts :=
  { self with
    statementFacts := output.stats.statementFacts.foldl
      (fun facts fact => Function.update facts fact.1 (some fact.2)) self.statementFacts
    terminatorFacts :=
      match output.stats.terminatorFact with
      | some fact => Function.update self.terminatorFacts fact.1 (some fact.2)
      | none => self.terminatorFacts
    finalValueFactsByBlock :=
      Function.update self.finalValueFactsByBlock block (some output.stats.valueFacts) }

/-- The value facts of every reachable block's last visit, merged by value. -/
def BorrowFacts.mergeValueFacts (self : BorrowFacts) (reachable : List BlockId) : BorrowFacts :=
  { self with
    valueFacts := reachable.foldl (fun merged block =>
      ((self.finalValueFactsByBlock block).getD []).foldl (fun facts fact =>
        Function.update facts fact.1 (some (match facts fact.1 with
          | some existing => existing.merge fact.2
          | none => fact.2))) merged) self.valueFacts }

/-- What was last propagated out of a block: its exit state, and the invoke results of the last
visit that captured any. -/
structure Propagated (n : Nat) where
  outState : BorrowState n
  invokeResults : Option (List (LocalId × LocalState n))
deriving DecidableEq

/-- A new output differs in its exit state, or captured results that were not propagated. -/
def Propagated.unchanged {n : Nat} (self : Propagated n) (output : BlockOutput n) : Bool :=
  !(decide (self.outState ≠ output.outputState) ||
    (decide (output.stats.invokeResults ≠ []) &&
      decide (self.invokeResults ≠ some output.stats.invokeResults)))

def Propagated.remember {n : Nat} (old : Option (Propagated n)) (output : BlockOutput n) :
    Propagated n where
  outState := output.outputState
  invokeResults :=
    if output.stats.invokeResults = [] then old.bind fun kept => kept.invokeResults
    else some output.stats.invokeResults

/-- Entry state: every local uninitialized but the parameters, narrowed to the entry block. -/
def initialState {n : Nat} (layout : FunctionLayout n) (function : HirFunction) :
    Except BorrowCheckError (BorrowState n) := do
  let state ← function.params.foldlM (fun (acc : BorrowState n) param =>
    match layout.indexOf param with
    | some i => .ok (acc.initializeParameter i)
    | none => .error .Infrastructure) (.newUninitialized n)
  match layout.visibleLocalsByBlock function.entry with
  | some mask => return state.killInvisible mask
  | none => return state

/-- The worklist of one function's analysis. -/
def functionWorklist (hir : HirModule) (a : AnalysedFunction)
    (transferBlock : BlockTransfer (layoutLocalIds a.blocks).length) :
    Worklist BlockId (BorrowState (layoutLocalIds a.blocks).length)
      (BlockOutput (layoutLocalIds a.blocks).length)
      (Propagated (layoutLocalIds a.blocks).length) BorrowFacts BorrowCheckError where
  visit id input := do
    let block ← (hir.blockById id).elim (.error .Infrastructure) .ok
    transferBlock block input
  successors id := ((hir.blockById id).elim [] fun block => block.terminator.targets).filter
    fun successor => successor ∈ a.blocks.map fun block => block.id
  edge id output successor := do
    let block ← (hir.blockById id).elim (.error .Infrastructure) .ok
    edgeState a.layout.localIds hir a.layout.visibleLocalsByBlock block output successor
  join := BorrowState.joinInPlace
  unchanged := Propagated.unchanged
  remember := Propagated.remember
  record facts id output := facts.record id output

/-- The state of the loop: block inputs, exit states, facts and the queue. -/
abbrev EngineState (n : Nat) : Type :=
  Worklist.State BlockId (BorrowState n) (Propagated n) BorrowFacts

/-- The entry block alone has an input and is queued. -/
def enterFunction {n : Nat} (report : BorrowFacts) (entry : BlockId) (initial : BorrowState n) :
    EngineState n where
  inputs := Function.update (fun _ => none) entry (some initial)
  memory _ := none
  facts := { report with finalValueFactsByBlock := fun _ => none }
  queue := [entry]
  pending := {entry}

/-- Visits that always suffice: one for the entry, and one for each growth of a block's input. -/
def visitBound (blockCount localCount : Nat) : Nat :=
  blockCount * (localCount * (8 + (localCount + localCount)) + 1) + 2

/-- `analyze_function`, over the analysed blocks and layout of the function. -/
def analyzeFunction (hir : HirModule) (function : HirFunction) (a : AnalysedFunction)
    (transferBlock : BlockTransfer (layoutLocalIds a.blocks).length) (report : BorrowFacts) :
    Option (Except BorrowCheckError (EngineState (layoutLocalIds a.blocks).length)) :=
  match initialState a.layout function with
  | .error error => some (.error error)
  | .ok initial =>
      ((functionWorklist hir a transferBlock).run
        (visitBound a.blocks.length (layoutLocalIds a.blocks).length)
        (enterFunction report function.entry initial)).map fun result =>
          result.map fun state =>
            { state with
              facts := state.facts.mergeValueFacts (a.blocks.map fun block => block.id) }

end Moth.Borrow
