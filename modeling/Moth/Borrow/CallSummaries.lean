import Moth.Borrow.Engine
import Moth.Borrow.ReturnAlias
import Moth.Lib.DepthFirst
import Moth.Lib.Rounds

/-!
# Building and finalizing call summaries

`build_public_call_summaries`, `stabilize_return_alias_summaries` and
`finalize_public_call_summary_effects` of `metadata.rs`, with the loop around
the last in `engine.rs`.

Return aliases are settled before the functions are analysed: a function that
can call itself through local calls is unknown, and every round classifies the
others from one table and publishes them together. Mutation is settled after:
a visit of a function marks the parameters that are roots of what it mutates
or passes to a written parameter, and writes the table in place.
-/

namespace Moth.Borrow

open Moth.Hir Moth.Lib

/-! ## Seeds -/

/-- The mutability of a local, by its last declaration. -/
def localMutability (hir : HirModule) (target : LocalId) : Option Bool :=
  ((hir.blocks.flatMap fun block => block.locals).reverse.find? fun declared =>
    declared.id = target).map fun declared => declared.isMutable

/-- What the seeding of the functions so far has retained. -/
structure CallSummarySeed where
  summaries : SummaryTable
  functionIds : List FunctionId
  parameterOwnerLocals : List LocalId

def parameterSeed (isMutable : Bool) : PublicCallParameterSummary where
  access := if isMutable then .Mutable else .Shared
  mutation := .NoWrite
  transferEffect := .MayConsume

/-- The parameters of one function, with the parameters seen before in it and in the module. -/
def seedParameters (hir : HirModule) (function : FunctionId) :
    List LocalId → List LocalId → List LocalId →
    Except CallSummaryError (List PublicCallParameterSummary)
  | [], _, _ => .ok []
  | param :: rest, parameterLocals, owners =>
      if param ∈ parameterLocals then
        .error (.DuplicateParameter function parameterLocals.length)
      else if param ∈ owners then .error (.SharedParameter param)
      else
        match localMutability hir param with
        | none => .error (.UnresolvedMutability function param)
        | some isMutable =>
            match seedParameters hir function rest (parameterLocals ++ [param]) (owners ++ [param])
              with
            | .error e => .error e
            | .ok later => .ok (parameterSeed isMutable :: later)

def seedFunction (hir : HirModule) (seed : CallSummarySeed) (function : HirFunction) :
    Except CallSummaryError CallSummarySeed :=
  if function.id ∈ seed.functionIds then .error (.DuplicateFunction function.id)
  else
    match seedParameters hir function.id function.params [] seed.parameterOwnerLocals with
    | .error e => .error e
    | .ok parameters => .ok
        { summaries := Function.update seed.summaries function.id (some ⟨parameters, .Fresh, false⟩)
          functionIds := seed.functionIds ++ [function.id]
          parameterOwnerLocals := seed.parameterOwnerLocals ++ function.params }

def seedSummaries (hir : HirModule) : Except CallSummaryError CallSummarySeed :=
  hir.functions.foldlM (seedFunction hir) ⟨fun _ => none, [], []⟩

/-! ## Recursive functions -/

/-- The functions of the module that a block calls. -/
def localCallees (block : HirBlock) : List FunctionId :=
  block.statements.filterMap (fun statement => match statement.kind with
    | .Call (.Local callee) _ _ => some callee
    | _ => none) ++
  match block.terminator with
    | .Invoke _ (.Call (.Local callee) _) _ _ _ _ => [callee]
    | _ => []

/-- The callees of a function, sorted and without duplicates. -/
def functionCallees (hir : HirModule) (function : HirFunction) :
    Except CallSummaryError (FunctionId × List FunctionId) :=
  match reachableBlocks hir function with
  | .error e => .error e
  | .ok blocks => .ok (function.id,
      ((blocks.flatMap localCallees).insertionSort fun a b => a.index ≤ b.index).dedup)

/-- The callees found for a function; the ids of the entries are distinct. -/
def calleesOf (edges : List (FunctionId × List FunctionId)) (id : FunctionId) :
    Option (List FunctionId) :=
  (edges.find? fun entry => entry.1 = id).map Prod.snd

theorem mem_of_calleesOf (edges : List (FunctionId × List FunctionId)) {id : FunctionId}
    {next : List FunctionId} (h : calleesOf edges id = some next) : id ∈ edges.map Prod.fst := by
  obtain ⟨entry, hentry, -⟩ := Option.map_eq_some_iff.1 h
  have hid := List.find?_some hentry
  rw [← of_decide_eq_true hid]
  exact List.mem_map_of_mem (List.mem_of_find?_eq_some hentry)

def callGraph (edges : List (FunctionId × List FunctionId)) : FiniteGraph FunctionId :=
  ⟨edges.map Prod.fst, calleesOf edges, mem_of_calleesOf edges⟩

/-- Whether local calls lead from a function back to it. -/
def reachesFunction (edges : List (FunctionId × List FunctionId)) (start : FunctionId) : Bool :=
  ((callGraph edges).search start (edges.length + 2) start []).any fun answer => answer.1

def recursiveReturnAliasFunctions (hir : HirModule) : Except CallSummaryError (List FunctionId) :=
  match hir.functions.mapM (functionCallees hir) with
  | .error e => .error e
  | .ok edges => .ok ((hir.functions.map fun function => function.id).filter
      fun id => reachesFunction edges id)

/-! ## Return aliases -/

/-- Replace the alias of a retained summary, with whether it changed. -/
def publishReturnAlias (row : FunctionId × FunctionReturnAliasSummary) (table : SummaryTable) :
    Except CallSummaryError (SummaryTable × Bool) :=
  match table row.1 with
  | none => .error (.MissingSummary (.Local row.1))
  | some summary =>
      if summary.returnAlias ≠ row.2 then
        .ok (Function.update table row.1 (some { summary with returnAlias := row.2 }), true)
      else .ok (table, false)

/-- What a round publishes for a function. -/
def retainedReturnAlias (hir : HirModule) (environment : CallEnvironment)
    (recursive : List FunctionId) (table : SummaryTable) (function : HirFunction) :
    Except CallSummaryError (FunctionId × FunctionReturnAliasSummary) :=
  if function.id ∈ recursive then .ok (function.id, .Unknown)
  else
    match classifyFunctionReturnAlias hir environment table function with
    | .error e => .error e
    | .ok classified => .ok (function.id, classified)

/-- Classify every function from the same table, then publish the whole round. -/
def returnAliasRound (hir : HirModule) (environment : CallEnvironment)
    (recursive : List FunctionId) (table : SummaryTable) :
    Except CallSummaryError (SummaryTable × Bool) :=
  match hir.functions.mapM (retainedReturnAlias hir environment recursive table) with
  | .error e => .error e
  | .ok retainedByFunction => inPlace publishReturnAlias retainedByFunction table

def parameterCount (hir : HirModule) : Nat :=
  (hir.functions.map fun function => function.params.length).sum

/-- Recursive functions are unknown from the start; the others repeat until nothing changes. -/
def stabilizeReturnAliasSummaries (hir : HirModule) (environment : CallEnvironment)
    (table : SummaryTable) : Except CallSummaryError SummaryTable :=
  match recursiveReturnAliasFunctions hir with
  | .error e => .error e
  | .ok recursive =>
      match inPlace publishReturnAlias (recursive.map fun id => (id, .Unknown)) table with
      | .error e => .error e
      | .ok (marked, _) =>
          rounds (returnAliasRound hir environment recursive) .UnstableReturnAlias
            (parameterCount hir + hir.functions.length * 2 + 1) marked

def buildPublicCallSummaries (hir : HirModule) (environment : CallEnvironment) :
    Except CallSummaryError SummaryTable :=
  match seedSummaries hir with
  | .error e => .error e
  | .ok seed =>
      match stabilizeReturnAliasSummaries hir environment seed.summaries with
      | .error e => .error e
      | .ok table =>
          if seed.functionIds.length ≠ hir.functions.length then
            .error (.RetainedCount seed.functionIds.length hir.functions.length)
          else .ok table

/-! ## Mutation -/

section Mutation

variable (environment : CallEnvironment) (facts : BorrowFacts) (table : SummaryTable)

/-- Which parameters of a callee are written, wherever its summary is retained. -/
def parameterWrites (target : CallTarget) : Option (List Bool) :=
  let writes (summary : PublicCallSummary) : List Bool :=
    summary.parameters.map fun parameter => decide (parameter.mutation = .Writes)
  match target with
  | .Local function => (table function).map writes
  | .CrossModule origin => (environment.importedCallSummaries origin).map writes
  | .ModulePrivate identity => (environment.modulePrivateCallSummaries identity).map writes
  | .Generated identity => (environment.generatedCallSummaries identity).map writes
  | .External function => (environment.externalFunctions function).map fun definition =>
      definition.parameters.map fun access => decide (access = .Mutable)

def callArgumentWrites (target : CallTarget) (argumentIndex : Nat) :
    Except CallSummaryError Bool :=
  match parameterWrites environment table target with
  | none => .error (.MissingSummary target)
  | some writes =>
      match writes[argumentIndex]? with
      | none => .error (.ArgumentOutOfRange target argumentIndex)
      | some written => .ok written

/-- The roots of an argument that is passed to a written parameter. -/
def argumentMutatedRoots (target : CallTarget) (argument : HirValueId × Nat) :
    Except CallSummaryError (List LocalId) :=
  match callArgumentWrites environment table target argument.2 with
  | .error e => .error e
  | .ok false => .ok []
  | .ok true =>
      match facts.valueFacts argument.1 with
      | none => .error (.MissingArgumentFacts argument.2)
      | some fact => .ok fact.roots

def callMutatedRoots (target : CallTarget) (args : List HirValueId) :
    Except CallSummaryError (List LocalId) :=
  (args.zipIdx.mapM (argumentMutatedRoots environment facts table target)).map List.flatten

/-- Keys and stored values of a map operation are only read. -/
def mapMutatedRoots (op : HirMapOp) (receiver : HirValueId) :
    Except CallSummaryError (List LocalId) :=
  if op.requiresMutableReceiver then
    match facts.valueFacts receiver with
    | none => .error .MissingReceiverFacts
    | some fact => .ok fact.roots
  else .ok []

def statementMutatedRoots (function : FunctionId) (statement : HirStatement) :
    Except CallSummaryError (List LocalId) :=
  match facts.statementFacts statement.id with
  | none => .error (.MissingStatementFacts function)
  | some statementFact =>
      match statement.kind with
      | .Write _ _ => .ok statementFact.mutableRoots
      | .Call target args _ => callMutatedRoots environment facts table target args
      | .MapOp op receiver _ _ => mapMutatedRoots facts op receiver
      | _ => .ok []

def terminatorMutatedRoots : HirTerminator → Except CallSummaryError (List LocalId)
  | .Invoke _ (.Call target args) _ _ _ _ => callMutatedRoots environment facts table target args
  | .Invoke _ (.MapOp op receiver _) _ _ _ _ => mapMutatedRoots facts op receiver
  | _ => .ok []

def blockMutatedRoots (function : FunctionId) (block : HirBlock) :
    Except CallSummaryError (List LocalId) :=
  match block.statements.mapM (statementMutatedRoots environment facts table function) with
  | .error e => .error e
  | .ok roots =>
      match terminatorMutatedRoots environment facts table block.terminator with
      | .error e => .error e
      | .ok last => .ok (roots.flatten ++ last)

/-- Mark the parameters at the positions, from a given one on, with whether any was not yet. -/
def markWrites (mutationPositions : List Nat) : Nat → List PublicCallParameterSummary →
    List PublicCallParameterSummary × Bool
  | _, [] => ([], false)
  | position, parameter :: rest =>
      let later := markWrites mutationPositions (position + 1) rest
      if position ∈ mutationPositions ∧ parameter.mutation ≠ .Writes then
        ({ parameter with mutation := .Writes } :: later.1, true)
      else (parameter :: later.1, later.2)

/-- Mark the parameters that one function mutates. -/
def finalizePublicCallSummaryEffects (hir : HirModule) (function : HirFunction)
    (table : SummaryTable) : Except CallSummaryError (SummaryTable × Bool) :=
  match reachableBlocks hir function with
  | .error e => .error e
  | .ok blocks =>
      match blocks.mapM (blockMutatedRoots environment facts table function.id) with
      | .error e => .error e
      | .ok roots =>
          match table function.id with
          | none => .error (.MissingSummary (.Local function.id))
          | some summary =>
              let marked := markWrites (roots.flatten.filterMap (paramIndex function.params)) 0
                summary.parameters
              .ok (Function.update table function.id (some { summary with parameters := marked.1 }),
                marked.2)

end Mutation

def finalizePublicCallSummaryEffectsToFixedPoint (hir : HirModule)
    (environment : CallEnvironment) (facts : BorrowFacts) (table : SummaryTable) :
    Except CallSummaryError SummaryTable :=
  rounds (inPlace (finalizePublicCallSummaryEffects environment facts hir) hir.functions)
    .UnstableMutation (parameterCount hir + 1) table

end Moth.Borrow
