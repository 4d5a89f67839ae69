import Moth.Hir.Syntax
import Moth.Lib.BreadthFirst

/-!
# Control flow and reads

The successor structure of a module (`hir/utils.rs`) and what a statement or
a terminator reads and redefines, in the terms of the representation itself:
a local is read where an expression that is evaluated contains a load or a
copy of it, and redefined where an operation binds it anew as a whole.

`ReadsOnPath` is the path notion that backward liveness approximates: some
run of blocks from a given one reads the local before redefining it. Inside a
block the operands of an operation are read before its result is bound, and a
jump reads all of its sources before binding any destination.
-/

namespace Moth.Hir

open Moth.Lib

/-- Successor block ids of a terminator. -/
def HirTerminator.targets : HirTerminator → List BlockId
  | .Jump target _ => [target]
  | .If _ thenBlock elseBlock => [thenBlock, elseBlock]
  | .Invoke _ _ success _ failure _ => [success, failure]
  | .Match _ arms => arms.map fun arm => arm.body
  | .Break target => [target]
  | .Continue target => [target]
  | .Return _ | .ReturnError _ | .RuntimeFailure _ | .Uninitialized | .AssertFailure _ => []

namespace HirModule

def blockById (hir : HirModule) (id : BlockId) : Option HirBlock :=
  hir.blocks.find? fun block => block.id = id

theorem blockById_id {hir : HirModule} {id : BlockId} {block : HirBlock}
    (h : hir.blockById id = some block) : block.id = id := by
  have hfound := List.find?_some h
  exact of_decide_eq_true hfound

theorem blockById_mem {hir : HirModule} {id : BlockId} {block : HirBlock}
    (h : hir.blockById id = some block) : block ∈ hir.blocks := List.mem_of_find?_eq_some h

/-- The blocks of a module and their successors. -/
def flowGraph (hir : HirModule) : FiniteGraph BlockId where
  nodes := hir.blocks.map fun block => block.id
  successors id := (hir.blockById id).map fun block => block.terminator.targets
  mem_nodes := by
    intro id next h
    obtain ⟨block, hblock, -⟩ := Option.map_eq_some_iff.1 h
    exact List.mem_map.2 ⟨block, blockById_mem hblock, blockById_id hblock⟩

theorem flowGraph_successors {hir : HirModule} {id : BlockId} {block : HirBlock}
    (h : hir.blockById id = some block) :
    hir.flowGraph.successors id = some block.terminator.targets := by
  simp [flowGraph, h]

/-- The blocks a function reaches, in breadth-first order. -/
def collectReachableBlocks (hir : HirModule) (entry : BlockId) : Option (List BlockId) :=
  hir.flowGraph.collect [] [entry]

end HirModule

/-! ## Reads and definitions -/

/-- An evaluated expression contains a load or a copy of the local. -/
inductive ReadsLocal (store : HirExpressionStore) (target : LocalId) : HirValueId → Prop
  | load {id : HirValueId} {place : HirPlace} : (store.expression id).kind = .Load place →
      place.root = target → ReadsLocal store target id
  | copy {id : HirValueId} {place : HirPlace} : (store.expression id).kind = .Copy place →
      place.root = target → ReadsLocal store target id
  | child {id child : HirValueId} : child ∈ store.childValues id →
      ReadsLocal store target child → ReadsLocal store target id

/-- The expressions a statement evaluates. -/
def HirStatementKind.operands : HirStatementKind → List HirValueId
  | .Write (.DefineLocal _) value => [value]
  | .Write (.AssignPlace place) value => place.indexValues ++ [value]
  | .Call _ args _ => args
  | .Expr value => [value]
  | .PushRuntimeFragment _ value => [value]
  | .MapOp _ receiver args _ => receiver :: args
  | .NumericOp _ _ operands _ => operands.values
  | .LoopStepFailure _ _ _ => []
  | .RangeCandidate current step last _ _ _ _ => [current, step, last]
  | .FormatFloat source _ _ => [source]
  | .ValidateFloat source _ _ => [source]

/-- The result destinations of a statement other than a write. -/
def HirStatementKind.destinations : HirStatementKind → List HirLocalDestination
  | .Call _ _ results => results
  | .MapOp _ _ _ result => result.toList
  | .NumericOp _ _ _ result => [result]
  | .LoopStepFailure _ _ result => [result]
  | .RangeCandidate _ _ _ _ _ candidateResult inRangeResult => [candidateResult, inRangeResult]
  | .FormatFloat _ _ result => [result]
  | .ValidateFloat _ _ result => [result]
  | .Write _ _ | .Expr _ | .PushRuntimeFragment _ _ => []

/-- The statement reads the local: through an operand, or as the accumulator it pushes to. -/
def StatementReads (store : HirExpressionStore) (target : LocalId) (statement : HirStatement) :
    Prop :=
  (∃ value ∈ statement.kind.operands, ReadsLocal store target value) ∨
    ∃ value, statement.kind = .PushRuntimeFragment target value

/-- The statement binds the local anew. -/
def StatementDefines (target : LocalId) (statement : HirStatement) : Prop :=
  (∃ value, statement.kind = .Write (.DefineLocal target) value) ∨
    .Define target ∈ statement.kind.destinations

/-- The expressions a terminator evaluates. -/
def HirTerminator.operands : HirTerminator → List HirValueId
  | .If condition _ _ => [condition]
  | .Invoke _ operation _ _ _ _ => operation.operands
  | .Match scrutinee arms =>
      scrutinee :: arms.flatMap fun arm => arm.pattern.value.toList ++ arm.guard.toList
  | .Return values => values
  | .ReturnError value => [value]
  | .AssertFailure message => [message]
  | .Jump _ _ | .Break _ | .Continue _ | .RuntimeFailure _ | .Uninitialized => []

def TerminatorReads (store : HirExpressionStore) (target : LocalId)
    (terminator : HirTerminator) : Prop :=
  (∃ value ∈ terminator.operands, ReadsLocal store target value) ∨
    ∃ successor args, terminator = .Jump successor args ∧
      ∃ argument ∈ args, argument.source = target

def TerminatorDefines (target : LocalId) : HirTerminator → Prop
  | .Jump _ args => ∃ argument ∈ args, argument.destination = target
  | .Invoke _ _ _ successResults _ errorResult => target ∈ successResults ∨ target = errorResult
  | _ => False

/-- The rest of a block reads the local before any of it redefines the local. -/
def ReadsFirst (store : HirExpressionStore) (target : LocalId) (terminator : HirTerminator) :
    List HirStatement → Prop
  | [] => TerminatorReads store target terminator
  | statement :: rest =>
      StatementReads store target statement ∨
        ¬ StatementDefines target statement ∧ ReadsFirst store target terminator rest

/-- The rest of a block redefines the local. -/
def Redefines (target : LocalId) (terminator : HirTerminator) (statements : List HirStatement) :
    Prop :=
  (∃ statement ∈ statements, StatementDefines target statement) ∨
    TerminatorDefines target terminator

/-- Some path from the entry of the block reads the local before redefining it. -/
inductive ReadsOnPath (hir : HirModule) (target : LocalId) : BlockId → Prop
  | here {id : BlockId} {block : HirBlock} : hir.blockById id = some block →
      ReadsFirst hir.expressions target block.terminator block.statements →
      ReadsOnPath hir target id
  | there {id successor : BlockId} {block : HirBlock} : hir.blockById id = some block →
      ¬ Redefines target block.terminator block.statements →
      successor ∈ block.terminator.targets → ReadsOnPath hir target successor →
      ReadsOnPath hir target id

/-- The same from inside a block, with the given statements still to run. -/
def ReadsFrom (hir : HirModule) (target : LocalId) (terminator : HirTerminator)
    (rest : List HirStatement) : Prop :=
  ReadsFirst hir.expressions target terminator rest ∨
    ¬ Redefines target terminator rest ∧
      ∃ successor ∈ terminator.targets, ReadsOnPath hir target successor

end Moth.Hir
