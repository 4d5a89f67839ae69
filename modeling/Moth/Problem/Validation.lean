import Mathlib.Data.Finset.Card
import Mathlib.Data.List.Sort
import Moth.Lib.Result
import Moth.Problem.Syntax

/-!
# Validation of a borrow problem

`problem/validation.rs`: ids are dense, every reference stays inside its
table, each block lists its events in point order and ends in the terminator
its edges name, each event belongs to one block, and call arguments, loans and
binding writes are paired with their events.

A failure is the infrastructure failure of the original with the names its
message renders. Tables that one pass fills and a later pass reads (outgoing
targets, event locations, the owners of uses and call results) are functions
of the problem here, since the passes between do not change them.
-/

namespace Moth.Problem

open Moth.Lib

inductive ValidationFailure where
  | NoBlocks
  | NoPoints
  | TableTooLarge (kind : String)
  | NotDense (kind : String) (row actual : Nat)
  | OutsideTable (kind : String) (raw len : Nat)
  | PointOutsideTable (owner : String) (raw len : Nat)
  | NotSortedUnique (owner : String) (first second : Nat)
  | EmptyOriginSet (owner : String)
  | NoExits
  | EntryHasIncoming
  | ExitListedTwice (exit : BlockId)
  | ExitHasOutgoing (exit : BlockId)
  | TerminalNotExit (block : BlockId)
  | PointBlockMismatch (point : PointId)
  | BlockBoundsElsewhere (block : BlockId)
  | BlockBoundsReversed (block : BlockId)
  | EventInTwoBlocks (event : EventId)
  | EventInWrongBlock (event : EventId)
  | EventsUnordered (block : BlockId)
  | PointOutsideRange (point : PointId)
  | EventInNoBlock
  | NoTerminatorEvent (block : BlockId)
  | ExitNotTerminal (block : BlockId)
  | TargetsMismatch (block : BlockId)
  | DefinitionNotWrite (use : UseId)
  | DefinitionProjected (use : UseId)
  | ResultOriginUnattached (origin : ValueOriginId)
  | ResultOriginOwners (origin : ValueOriginId)
  | EmptyAliasParams (origin : ValueOriginId) (call : CallId) (event : EventId)
      (result : PlaceId)
  | ResultOriginWithoutEffect (origin : ValueOriginId)
  | ResultOriginArgument (origin : ValueOriginId) (call : CallId)
  | LoanWithoutHolder (loan : LoanId)
  | SecondCallEffect (call : CallId)
  | ArgumentEventsWithoutArguments (call : CallId)
  | ArgumentsWithoutArgumentEvents (call : CallId)
  | ArgumentEventsMismatch (call : CallId)
  | ArgumentEventAfterEffect (call : CallId)
  | ArgumentEventsWithoutEffect (call : CallId)
  | ArgumentUseAccess (use : UseId)
  | ArgumentUsePlace (use : UseId)
  | DuplicateResultDestinations
  | ResultNotCallResult (origin : ValueOriginId)
  | ResultOfOtherCall (origin : ValueOriginId)
  | ResultArgumentOutside (origin : ValueOriginId) (index : Nat)
  | DestinationProjected (owner : String) (place : PlaceId)
  | JumpDestinationNotFresh (place : PlaceId)
  | JumpDestinationTwice (place : PlaceId)
  | JumpProjected
  | AccessUsePoint (use : UseId)
  | LoanIssuePoint (loan : LoanId)
  | LoanKillPoint (loan : LoanId)
  | UseOwners (use : UseId) (owners : Nat)
  | LoanIssues (loan : LoanId) (issues : Nat)
  | LoanKillMissing (loan : LoanId) (kill : PointId)
  | JumpWritesMissing (block : BlockId)
  | JumpReadsMissing (block : BlockId)
  | JumpReadsAfterWrites (block : BlockId)
  | JumpWriteMismatch (block : BlockId)
  | JumpReadMismatch (place : PlaceId)
  | BindingWritePlace (use : UseId)
  | BindingWriteUnpaired (use : UseId)
deriving DecidableEq

abbrev Checked := Except ValidationFailure

/-- Fail unless the condition holds. -/
def ensure (condition : Prop) [Decidable condition] (failure : ValidationFailure) : Checked Unit :=
  if condition then .ok () else .error failure

/-! ## Rows and references -/

def validateDenseFrom (kind : String) : Nat → List Nat → Checked Unit
  | _, [] => .ok ()
  | row, actual :: rest => do
      ensure (row < 4294967296) (.TableTooLarge kind)
      ensure (actual = row) (.NotDense kind row actual)
      validateDenseFrom kind (row + 1) rest

/-- The rows of a table carry their own positions as ids. -/
def validateDenseIds {α : Type} (rows : List α) (kind : String) (id : α → Nat) : Checked Unit :=
  validateDenseFrom kind 0 (rows.map id)

def requireIndex (raw len : Nat) (kind : String) : Checked Unit :=
  ensure (raw < len) (.OutsideTable kind raw len)

def validateSortedUnique (owner : String) : List Nat → Checked Unit
  | first :: second :: rest => do
      ensure (first < second) (.NotSortedUnique owner first second)
      validateSortedUnique owner (second :: rest)
  | _ => .ok ()

def validateOriginSet (origins : List ValueOriginId) (originCount : Nat) (owner : String) :
    Checked Unit := do
  validateSortedUnique owner (origins.map ProblemId.raw)
  origins.forM fun origin => requireIndex origin.index originCount "value-origin"
  ensure (origins ≠ []) (.EmptyOriginSet owner)

def validatePoint (point : PointId) (pointCount : Nat) (owner : String) : Checked Unit :=
  ensure (point.index < pointCount) (.PointOutsideTable owner point.raw pointCount)

namespace BorrowProblem

variable (problem : BorrowProblem)

def validatePlace (place : PlaceId) (owner : String) : Checked Unit :=
  requireIndex place.index problem.places.length owner

def isProjected (place : PlaceId) : Bool :=
  (problem.places[place.index]?).any fun row => row.projections ≠ []

def validateBindingDestination (destination : BindingDestination) (owner : String) :
    Checked Unit := do
  problem.validatePlace destination.place owner
  ensure (¬ (destination.defines ∧ problem.isProjected destination.place))
    (.DestinationProjected owner destination.place)

def validateOrigin (origin : ValueOriginId) (owner : String) : Checked Unit :=
  requireIndex origin.index problem.origins.length owner

def validateTables : Checked Unit := do
  ensure (problem.controlFlow.blocks ≠ []) .NoBlocks
  ensure (problem.points ≠ []) .NoPoints
  validateDenseIds problem.bindings "binding" fun row => row.id.raw
  validateDenseIds problem.controlFlow.blocks "CFG block" fun row => row.id.raw
  validateDenseIds problem.points "program-point" fun row => row.id.raw
  validateDenseIds problem.places "place" fun row => row.id.raw
  validateDenseIds problem.origins "value-origin" fun row => row.id.raw
  validateDenseIds problem.loans "loan" fun row => row.id.raw
  validateDenseIds problem.uses "use" fun row => row.id.raw
  validateDenseIds problem.calls "call" fun row => row.id.raw
  validateDenseIds problem.events "event" fun row => row.id.raw

/-! ## Control flow -/

/-- The targets of the edges out of a block, in edge order. -/
def outgoingTargets (block : BlockId) : List BlockId :=
  (problem.controlFlow.edges.filter fun edge => edge.source = block).map CfgEdge.target

def validateEdges : Checked Unit := do
  let blockCount := problem.controlFlow.blocks.length
  requireIndex problem.controlFlow.entry.index blockCount "CFG entry block"
  ensure (problem.controlFlow.exits ≠ []) .NoExits
  problem.controlFlow.edges.forM fun edge => do
    requireIndex edge.source.index blockCount "CFG source block"
    requireIndex edge.target.index blockCount "CFG target block"
  ensure (∀ edge ∈ problem.controlFlow.edges, edge.target ≠ problem.controlFlow.entry)
    .EntryHasIncoming

def validateExits : Checked Unit := do
  let _ ← problem.controlFlow.exits.foldlM (fun (seen : List BlockId) exit => do
    requireIndex exit.index problem.controlFlow.blocks.length "CFG exit block"
    ensure (exit ∉ seen) (.ExitListedTwice exit)
    ensure (problem.outgoingTargets exit = []) (.ExitHasOutgoing exit)
    return exit :: seen) []
  problem.controlFlow.blocks.forM fun block =>
    ensure (problem.outgoingTargets block.id = [] → block.id ∈ problem.controlFlow.exits)
      (.TerminalNotExit block.id)

def validatePoints : Checked Unit :=
  problem.points.forM fun point => do
    requireIndex point.block.index problem.controlFlow.blocks.length "program-point block"
    ensure ((problem.controlFlow.blocks[point.block.index]?).map CfgBlock.id = some point.block)
      (.PointBlockMismatch point.id)

/-- The point of an id that its caller has checked. -/
def pointRow (point : PointId) (kind : String) : Checked ProgramPoint :=
  match problem.points[point.index]? with
  | some row => .ok row
  | none => .error (.OutsideTable kind point.raw problem.points.length)

/-- One listed event: new to every block, in this block, not before the event ahead of it. -/
def validateBlockEvent (block : CfgBlock) (state : List EventId × Option Nat) (id : EventId) :
    Checked (List EventId × Option Nat) :=
  match problem.events[id.index]? with
  | none => .error (.OutsideTable "block event" id.raw problem.events.length)
  | some event => do
      ensure (id ∉ state.1) (.EventInTwoBlocks id)
      let point ← problem.pointRow event.point "event point"
      ensure (point.block = block.id) (.EventInWrongBlock event.id)
      ensure (∀ previous, state.2 = some previous → previous ≤ point.ordinal)
        (.EventsUnordered block.id)
      return (id :: state.1, some point.ordinal)

def validateBlock (seen : List EventId) (block : CfgBlock) : Checked (List EventId) := do
  let entryPoint ← problem.pointRow block.entry "CFG block entry point"
  let exitPoint ← problem.pointRow block.exit "CFG block exit point"
  ensure (entryPoint.block = block.id ∧ exitPoint.block = block.id)
    (.BlockBoundsElsewhere block.id)
  ensure (entryPoint.ordinal ≤ exitPoint.ordinal) (.BlockBoundsReversed block.id)
  let state ← block.events.foldlM (problem.validateBlockEvent block) (seen, none)
  return state.1

/-- The ordinals of a block's entry and exit points. -/
def blockRange (block : CfgBlock) : Nat × Nat :=
  ((problem.points[block.entry.index]?).elim 0 ProgramPoint.ordinal,
    (problem.points[block.exit.index]?).elim 0 ProgramPoint.ordinal)

def validateBlocks : Checked Unit := do
  let seen ← problem.controlFlow.blocks.foldlM problem.validateBlock []
  problem.points.forM fun point =>
    ensure (∀ block, problem.controlFlow.blocks[point.block.index]? = some block →
        (problem.blockRange block).1 ≤ point.ordinal ∧
          point.ordinal ≤ (problem.blockRange block).2)
      (.PointOutsideRange point.id)
  ensure (∀ event ∈ problem.events, event.id ∈ seen) .EventInNoBlock

/-- The terminator's targets are the outgoing edges, each once. -/
def validateTerminator (block : CfgBlock) : Checked Unit :=
  match block.events.getLast?.bind fun id => problem.events[id.index]? with
  | some ⟨_, _, .Terminator kind⟩ => do
      let outgoing := problem.outgoingTargets block.id
      let actual := kind.targets.toFinset
      ensure (outgoing = [] → kind.isTerminal = true) (.ExitNotTerminal block.id)
      let expected := outgoing.toFinset.filter fun target => target ∈ actual
      ensure (expected = actual ∧ expected.card = outgoing.length) (.TargetsMismatch block.id)
  | _ => .error (.NoTerminatorEvent block.id)

/-! ## Uses, places and origins -/

def validateUse (use : Use) : Checked Unit := do
  validatePoint use.point problem.points.length "use"
  requireIndex use.place.index problem.places.length "use place"
  ensure (use.definition = true → use.kind.isWrite = true) (.DefinitionNotWrite use.id)
  ensure (¬ (use.definition = true ∧ problem.isProjected use.place))
    (.DefinitionProjected use.id)

/-- The call effects in event order, each with its event. -/
def callEffects : List (EventId × CallEffect) :=
  problem.events.filterMap fun event =>
    match event.kind with
    | .CallEffect effect => some (event.id, effect)
    | _ => none

/-- The events, calls and places that a call-result origin is attached to. -/
def callResultOwners (origin : ValueOriginId) : List (EventId × CallId × PlaceId) :=
  problem.callEffects.flatMap fun row =>
    (row.2.results.filter fun result => result.origin = origin).map fun result =>
      (row.1, row.2.call, result.destination.place)

def validateProvenance (origin : ValueOriginId) (call : CallId)
    (owner : EventId × CallId × PlaceId) : CallResultProvenance → Checked Unit
  | .Alias sources => validateOriginSet sources problem.origins.length "call-result provenance"
  | .AliasParams indices => do
      ensure (indices ≠ []) (.EmptyAliasParams origin call owner.1 owner.2.2)
      validateSortedUnique "call-result parameter" indices
      match problem.callEffects.find? fun row => row.2.call = call with
      | none => .error (.ResultOriginWithoutEffect origin)
      | some row =>
          ensure (∀ index ∈ indices, index < row.2.arguments.length)
            (.ResultOriginArgument origin call)
  | .Fresh | .Unknown _ => .ok ()

def validateOriginKind (origin : ValueOrigin) : Checked Unit :=
  match origin.kind with
  | .Unknown | .Parameter _ | .Fresh => .ok ()
  | .Alias sources | .ExclusiveAlias sources | .Copy sources | .Join sources =>
      validateOriginSet sources problem.origins.length "origin derivation"
  | .Projection source _ => validateOriginSet [source] problem.origins.length "projection"
  | .CallResult call provenance => do
      requireIndex call.index problem.calls.length "origin call"
      match problem.callResultOwners origin.id with
      | [] => .error (.ResultOriginUnattached origin.id)
      | first :: rest => do
          ensure (∀ owner ∈ first :: rest, owner.2.1 = call ∧ owner.1 = first.1)
            (.ResultOriginOwners origin.id)
          problem.validateProvenance origin.id call first provenance

def validateLoan (loan : Loan) : Checked Unit := do
  validatePoint loan.issuedAt problem.points.length "loan issue"
  requireIndex loan.place.index problem.places.length "loan place"
  validateOriginSet loan.origins problem.origins.length "loan origins"
  ensure (loan.holders ≠ []) (.LoanWithoutHolder loan.id)
  loan.holders.forM fun holder => requireIndex holder.index problem.places.length "loan holder"
  validateSortedUnique "loan uses" (loan.uses.map ProblemId.raw)
  loan.uses.forM fun use => requireIndex use.index problem.uses.length "loan use"
  validateSortedUnique "loan kills" (loan.kills.map ProblemId.raw)
  loan.kills.forM fun kill => validatePoint kill problem.points.length "loan kill"

/-! ## Calls -/

/-- The argument events in event order: call, index, argument and event. -/
def argumentEvents : List (CallId × Nat × CallArgument × EventId) :=
  problem.events.filterMap fun event =>
    match event.kind with
    | .CallArgument call index argument => some (call, index, argument, event.id)
    | _ => none

/-- The block and position of an event. -/
def eventLocation (id : EventId) : Nat × Nat :=
  (problem.controlFlow.blocks.findSome? fun block =>
    if id ∈ block.events then some (block.id.raw, block.events.idxOf id) else none).getD (0, 0)

/-- The argument events of a call, in block order. -/
def orderedArguments (call : CallId) : List (Nat × CallArgument × EventId) :=
  ((problem.argumentEvents.filter fun row => row.1 = call).map Prod.snd).insertionSort
    fun a b =>
      let first := problem.eventLocation a.2.2
      let second := problem.eventLocation b.2.2
      first.1 < second.1 ∨ (first.1 = second.1 ∧ first.2 ≤ second.2)

/-- The argument events repeat the effect's arguments, before the effect in its block. -/
def validateArgumentEvents (effectEvent : EventId) (effect : CallEffect) : Checked Unit :=
  let arguments := problem.orderedArguments effect.call
  if effect.arguments = [] then
    ensure (arguments = []) (.ArgumentEventsWithoutArguments effect.call)
  else do
    ensure (arguments ≠ []) (.ArgumentsWithoutArgumentEvents effect.call)
    ensure (arguments.length = effect.arguments.length) (.ArgumentEventsMismatch effect.call)
    let location := problem.eventLocation effectEvent
    arguments.zipIdx.forM fun row => do
      ensure (row.1.1 = row.2 ∧ effect.arguments[row.2]? = some row.1.2.1)
        (.ArgumentEventsMismatch effect.call)
      ensure ((problem.eventLocation row.1.2.2).1 = location.1 ∧
          (problem.eventLocation row.1.2.2).2 < location.2)
        (.ArgumentEventAfterEffect effect.call)

def validateCalls : Checked Unit := do
  let _ ← problem.callEffects.foldlM (fun (seen : List CallId) row => do
    ensure (row.2.call ∉ seen) (.SecondCallEffect row.2.call)
    return row.2.call :: seen) []
  let byCall := problem.callEffects.insertionSort fun a b => a.2.call.raw ≤ b.2.call.raw
  byCall.forM fun row => problem.validateArgumentEvents row.1 row.2
  let calls := (problem.argumentEvents.map Prod.fst).insertionSort fun a b => a.raw ≤ b.raw
  calls.forM fun call =>
    ensure (call ∈ problem.callEffects.map fun row => row.2.call)
      (.ArgumentEventsWithoutEffect call)

/-! ## Events -/

def granularCallUses : List UseId :=
  problem.argumentEvents.map fun row => row.2.2.1.useId

def validateEffectArgument (event : Event) (argument : CallArgument) : Checked Unit := do
  problem.validatePlace argument.place "call argument"
  requireIndex argument.useId.index problem.uses.length "call argument use"
  ensure (argument.useId ∉ problem.granularCallUses →
      (problem.uses[argument.useId.index]?).any fun use =>
        use.point = event.point ∧ use.place = argument.place)
    (.ArgumentUsePlace argument.useId)

/-- A result is a call-result origin of this call, over arguments the call has. -/
def validateResultOrigin (effect : CallEffect) (origin : ValueOriginId) : Checked Unit :=
  match problem.origins[origin.index]? with
  | some ⟨_, .CallResult originCall provenance⟩ => do
      ensure (originCall = effect.call) (.ResultOfOtherCall origin)
      match provenance with
      | .AliasParams indices =>
          indices.forM fun index =>
            ensure (index < effect.arguments.length) (.ResultArgumentOutside origin index)
      | .Fresh | .Alias _ | .Unknown _ => .ok ()
  | _ => .error (.ResultNotCallResult origin)

def validateEffectResult (effect : CallEffect) (destinations : List PlaceId)
    (result : CallResult) : Checked (List PlaceId) := do
  ensure (result.destination.place ∉ destinations) .DuplicateResultDestinations
  problem.validateBindingDestination result.destination "call result"
  problem.validateOrigin result.origin "call result origin"
  problem.validateResultOrigin effect result.origin
  return result.destination.place :: destinations

def validateJumpArgument (destinations : List PlaceId) (argument : JumpArgument) :
    Checked (List PlaceId) := do
  let destination := argument.destination.place
  problem.validatePlace argument.source "jump source"
  problem.validateBindingDestination argument.destination "jump destination"
  ensure (argument.destination.defines = true) (.JumpDestinationNotFresh destination)
  ensure (destination ∉ destinations) (.JumpDestinationTwice destination)
  ensure (¬ problem.isProjected destination ∧ ¬ problem.isProjected argument.source)
    .JumpProjected
  return destination :: destinations

def validateTerminatorEvent : TerminatorEventKind → Checked Unit
  | .Jump target arguments => do
      requireIndex target.index problem.controlFlow.blocks.length "terminator target block"
      let _ ← arguments.foldlM problem.validateJumpArgument []
      return ()
  | .Break target | .Continue target =>
      requireIndex target.index problem.controlFlow.blocks.length "terminator target block"
  | .Branch targets => do
      validateSortedUnique "terminator target blocks" (targets.map ProblemId.raw)
      targets.forM fun target =>
        requireIndex target.index problem.controlFlow.blocks.length "terminator target block"
  | .Return | .ReturnError | .RuntimeFailure | .AssertFailure => .ok ()

def validateRebindValue : RebindValue → Checked Unit
  | .Fresh origin => problem.validateOrigin origin "fresh rebind"
  | .Alias origins => validateOriginSet origins problem.origins.length "alias rebind"
  | .AliasFromPlace source => problem.validatePlace source "place rebind source"

def validateCallArgumentEvent (event : Event) (call : CallId) (argument : CallArgument) :
    Checked Unit := do
  requireIndex call.index problem.calls.length "call argument call"
  requireIndex argument.useId.index problem.uses.length "call argument use"
  problem.validatePlace argument.place "call argument place"
  match problem.uses[argument.useId.index]? with
  | none => .error (.OutsideTable "call argument use" argument.useId.raw problem.uses.length)
  | some use => do
      ensure (argument.access = use.kind.accessKind) (.ArgumentUseAccess argument.useId)
      ensure (use.point = event.point ∧ use.place = argument.place)
        (.ArgumentUsePlace argument.useId)

def validateEvent (event : Event) : Checked Unit := do
  validatePoint event.point problem.points.length "event"
  match event.kind with
  | .Fresh destination origin => do
      problem.validateBindingDestination destination "fresh destination"
      problem.validateOrigin origin "fresh origin"
  | .Alias source destination origins | .ExclusiveAlias source destination origins => do
      problem.validatePlace source "alias source"
      problem.validateBindingDestination destination "alias destination"
      validateOriginSet origins problem.origins.length "alias event"
  | .AliasFromPlace source destination | .ExclusiveAliasFromPlace source destination => do
      problem.validatePlace source "place alias source"
      problem.validateBindingDestination destination "place alias destination"
  | .Copy source destination origin => do
      problem.validatePlace source "copy source"
      problem.validateBindingDestination destination "copy destination"
      problem.validateOrigin origin "copy result"
  | .Projection source destination origin => do
      problem.validatePlace source "projection source"
      problem.validateBindingDestination destination "projection destination"
      problem.validateOrigin origin "projection result"
  | .Rebind destination value => do
      problem.validateBindingDestination destination "rebind destination"
      problem.validateRebindValue value
  | .Aggregate destination origin fields => do
      problem.validateBindingDestination destination "aggregate destination"
      problem.validateOrigin origin "aggregate origin"
      fields.forM fun field => problem.validatePlace field.source "aggregate child"
  | .CallArgument call _ argument => problem.validateCallArgumentEvent event call argument
  | .CallEffect effect => do
      requireIndex effect.call.index problem.calls.length "call effect"
      effect.arguments.forM (problem.validateEffectArgument event)
      let _ ← effect.results.foldlM (problem.validateEffectResult effect) []
      return ()
  | .ScopeExit bindings => do
      validateSortedUnique "scope-exit bindings" (bindings.map ProblemId.raw)
      bindings.forM fun binding =>
        requireIndex binding.index problem.bindings.length "scope-exit binding"
  | .Terminator kind => problem.validateTerminatorEvent kind
  | .Access useId => do
      requireIndex useId.index problem.uses.length "access use"
      ensure ((problem.uses[useId.index]?).any fun use => use.point = event.point)
        (.AccessUsePoint useId)
  | .LoanIssue loan => do
      requireIndex loan.index problem.loans.length "loan issue event"
      ensure ((problem.loans[loan.index]?).any fun row => row.issuedAt = event.point)
        (.LoanIssuePoint loan)
  | .LoanKill loan => do
      requireIndex loan.index problem.loans.length "loan kill event"
      ensure ((problem.loans[loan.index]?).any fun row => event.point ∈ row.kills)
        (.LoanKillPoint loan)

/-! ## Owners -/

/-- The uses an event owns: an effect owns the arguments without an argument event. -/
def ownedUses (event : Event) : List UseId :=
  match event.kind with
  | .CallArgument _ _ argument => [argument.useId]
  | .CallEffect effect =>
      (effect.arguments.map CallArgument.useId).filter fun use => use ∉ problem.granularCallUses
  | .Access useId => [useId]
  | _ => []

def useOwners (use : UseId) : Nat :=
  (problem.events.flatMap problem.ownedUses).count use

def loanIssues (loan : LoanId) : Nat :=
  problem.events.countP fun event => event.kind = .LoanIssue loan

def validateUseOwners : Checked Unit :=
  problem.uses.forM fun use =>
    ensure (problem.useOwners use.id = 1) (.UseOwners use.id (problem.useOwners use.id))

def validateLoanEvents : Checked Unit := do
  problem.loans.forM fun loan =>
    ensure (problem.loanIssues loan.id = 1) (.LoanIssues loan.id (problem.loanIssues loan.id))
  problem.loans.forM fun loan =>
    loan.kills.forM fun kill =>
      ensure (∃ event ∈ problem.events, event.kind = .LoanKill loan.id ∧ event.point = kill)
        (.LoanKillMissing loan.id kill)

/-- The use of the access event at a position of a block. -/
def accessAt (block : CfgBlock) (position : Nat) : Option (UseId × Use) :=
  match (block.events[position]?).bind fun id => problem.events[id.index]? with
  | some ⟨_, _, .Access useId⟩ => (problem.uses[useId.index]?).map fun use => (useId, use)
  | _ => none

/-- Before a jump with arguments stand its source reads, then its destination writes; the
position of the first write. -/
def validateJumpAccesses (block : CfgBlock) : Checked (Option Nat) :=
  match block.events.getLast?.bind fun id => problem.events[id.index]? with
  | some ⟨_, _, .Terminator (.Jump _ arguments)⟩ =>
      if arguments = [] then .ok none
      else do
        let terminatorIndex := block.events.length - 1
        ensure (arguments.length ≤ terminatorIndex) (.JumpWritesMissing block.id)
        let writeStart := terminatorIndex - arguments.length
        arguments.zipIdx.forM fun row =>
          match problem.accessAt block (writeStart + row.2) with
          | none => .error (.JumpReadsAfterWrites block.id)
          | some access =>
              ensure (access.2.kind.bindingDestination = some row.1.destination ∧
                  access.2.place = row.1.destination.place)
                (.JumpWriteMismatch block.id)
        ensure (arguments.length ≤ writeStart) (.JumpReadsMissing block.id)
        let sourceStart := writeStart - arguments.length
        arguments.zipIdx.forM fun row =>
          match problem.accessAt block (sourceStart + row.2) with
          | none => .error (.JumpReadsAfterWrites block.id)
          | some access =>
              ensure (access.2.kind = .Read ∧ access.2.place = row.1.source)
                (.JumpReadMismatch row.1.source)
        return some writeStart
  | _ => .ok none

/-- The nearest call effect ahead of a position, with accesses alone between, has this result. -/
def previousCallWrites (block : CfgBlock) (position : Nat) (destination : BindingDestination) :
    Bool :=
  let previous := (block.events.take position).reverse.filterMap fun id => problem.events[id.index]?
  let adjacent := previous.takeWhile fun event =>
    match event.kind with
    | .Access _ | .CallEffect _ => true
    | _ => false
  (adjacent.findSome? fun event =>
    match event.kind with
    | .CallEffect effect => some (effect.results.any fun result => result.destination = destination)
    | _ => none).getD false

/-- A binding write is paired with exactly one writer: the next event, the call before it, or
the block's jump. -/
def validateBindingWrite (block : CfgBlock) (jumpWriteStart : Option Nat) (position : Nat) :
    Checked Unit :=
  match problem.accessAt block position with
  | none => .ok ()
  | some (useId, use) =>
      match use.kind.bindingDestination with
      | none => .ok ()
      | some destination => do
          ensure (destination.place = use.place) (.BindingWritePlace useId)
          let nextMatches := decide ((((block.events[position + 1]?).bind fun id =>
            problem.events[id.index]?).bind fun event => event.kind.bindingDestination) =
              some destination)
          let previousCallMatches := problem.previousCallWrites block position destination
          let jumpMatches := jumpWriteStart.any fun start => start ≤ position
          ensure (nextMatches.toNat + previousCallMatches.toNat + jumpMatches.toNat = 1)
            (.BindingWriteUnpaired useId)

def validateBindingWriteAccesses : Checked Unit :=
  problem.controlFlow.blocks.forM fun block => do
    let jumpWriteStart ← problem.validateJumpAccesses block
    (List.range block.events.length).forM (problem.validateBindingWrite block jumpWriteStart)

/-- Re-run every invariant check. -/
def validate : Checked Unit := do
  problem.validateTables
  problem.validateEdges
  problem.validateExits
  problem.validatePoints
  problem.validateBlocks
  problem.controlFlow.blocks.forM problem.validateTerminator
  problem.uses.forM problem.validateUse
  problem.places.forM fun place =>
    requireIndex place.root.index problem.bindings.length "place root binding"
  problem.origins.forM problem.validateOriginKind
  problem.loans.forM problem.validateLoan
  problem.validateCalls
  problem.events.forM problem.validateEvent
  problem.validateUseOwners
  problem.validateBindingWriteAccesses
  problem.validateLoanEvents

end BorrowProblem

end Moth.Problem
