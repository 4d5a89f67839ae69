import Mathlib.Data.Fintype.Prod
import Moth.Lib.BreadthFirst
import Moth.Lib.Sweep
import Moth.Problem.Validation

/-!
# Future use over a borrow problem

`last_use/mod.rs`: whether a subject can be observed after a location. The
query looks at the rest of its own block first, and otherwise solves a MAY and
a MUST fact for each block, with the query block's own observations narrowed
to what the query has not passed.

A map keyed by dense ids is the list of its rows in id order: validation has
already placed every key in its table.
-/

namespace Moth.Problem

open Moth.Lib

inductive FutureUseStatus where
  | NoFutureUse
  | MayBeUsed
  | MustBeUsed
deriving DecidableEq

inductive LastUseSubject where
  | Place (place : PlaceId)
  | Binding (binding : BindingId)
  | Origin (origin : ValueOriginId)
  | Loan (loan : LoanId)
deriving DecidableEq

structure LastUseLocation where
  point : PointId
  afterEvent : Option EventId
deriving DecidableEq

def LastUseLocation.atPoint (point : PointId) : LastUseLocation := ⟨point, none⟩

def LastUseLocation.afterEventAt (event : EventId) (point : PointId) : LastUseLocation :=
  ⟨point, some event⟩

structure LastUseObservation where
  subject : LastUseSubject
  location : LastUseLocation
  useId : UseId
deriving DecidableEq

inductive LastUseWitness where
  | NoFutureUse (exploredExits : List BlockId)
  | MayBeUsed (laterUse : UseId) (noUseExit : Option BlockId)
  | MustBeUsed (laterUse : UseId)
deriving DecidableEq

structure LastUseResult where
  subject : LastUseSubject
  location : LastUseLocation
  status : FutureUseStatus
  witness : LastUseWitness
deriving DecidableEq

inductive LastUseFailure where
  | Invalid (failure : ValidationFailure)
  | UseWithoutOwner (use : UseId)
  | EventWithoutLocation (event : EventId)
  | UnknownPlace (place : PlaceId)
  | LoanUseWithoutOwner (use : UseId)
  | UnknownPoint (point : PointId)
  | UnknownEvent (event : EventId)
  | EventPointMismatch
  | PointWithoutBlock (point : PointId)
  | UnknownBlock (block : BlockId)
  | EventOutsideBlock (event : EventId) (block : BlockId)
  | MayWithoutWitness
  | MustWithoutWitness
deriving DecidableEq

structure LastUseAnalysis where
  pointBlock : List (PointId × BlockId)
  eventsByBlock : List (BlockId × List EventId)
  eventLocationById : List (EventId × LastUseLocation)
  observationsBySubject : LastUseSubject → List LastUseObservation
  successors : List (BlockId × List BlockId)
  exits : List BlockId

/-- Fail with the given failure when a row is missing. -/
def required {α : Type} (row : Option α) (failure : LastUseFailure) : Except LastUseFailure α :=
  match row with
  | some value => .ok value
  | none => .error failure

/-- The event that owns each use: an argument event always, an access unless one is known. -/
def useEventMap (problem : BorrowProblem) : UseId → Option EventId :=
  problem.events.foldl (fun (eventByUse : UseId → Option EventId) event =>
    match event.kind with
    | .CallArgument _ _ argument => Function.update eventByUse argument.useId (some event.id)
    | .Access useId =>
        Function.update eventByUse useId (some ((eventByUse useId).getD event.id))
    | _ => eventByUse) fun _ => none

namespace LastUseAnalysis

/-- Successors of a block, sorted and without repetition. -/
def sortedTargets (problem : BorrowProblem) (block : BlockId) : List BlockId :=
  ((problem.outgoingTargets block).insertionSort fun a b => a.raw ≤ b.raw).dedup

def empty (problem : BorrowProblem) : LastUseAnalysis where
  pointBlock := problem.points.map fun point => (point.id, point.block)
  eventsByBlock := problem.controlFlow.blocks.map fun block => (block.id, block.events)
  eventLocationById := problem.events.map fun event => (event.id, .afterEventAt event.id event.point)
  observationsBySubject _ := []
  successors :=
    problem.controlFlow.blocks.map fun block => (block.id, sortedTargets problem block.id)
  exits := problem.controlFlow.exits

def addObservation (self : LastUseAnalysis) (observation : LastUseObservation) :
    LastUseAnalysis :=
  { self with
    observationsBySubject := Function.update self.observationsBySubject observation.subject
      (self.observationsBySubject observation.subject ++ [observation]) }

/-- Observations sort by point, then by event with none first, then by use. -/
def observationKey (observation : LastUseObservation) : List Nat :=
  [observation.location.point.raw,
    observation.location.afterEvent.elim 0 fun event => event.raw + 1, observation.useId.raw]

def sortObservations (self : LastUseAnalysis) : LastUseAnalysis :=
  { self with
    observationsBySubject := fun subject =>
      (self.observationsBySubject subject).insertionSort fun a b =>
        observationKey a ≤ observationKey b }

/-- A use observes its place, and the binding the place is rooted at. -/
def addUse (problem : BorrowProblem) (self : LastUseAnalysis) (use : Use) :
    Except LastUseFailure LastUseAnalysis := do
  let event ← required (useEventMap problem use.id) (.UseWithoutOwner use.id)
  let location ← required (self.eventLocationById.lookup event) (.EventWithoutLocation event)
  let place ← required problem.places[use.place.index]? (.UnknownPlace use.place)
  return (self.addObservation ⟨.Place use.place, location, use.id⟩).addObservation
    ⟨.Binding place.root, location, use.id⟩

def addLoanUse (problem : BorrowProblem) (loan : LoanId) (self : LastUseAnalysis) (use : UseId) :
    Except LastUseFailure LastUseAnalysis := do
  let event ← required (useEventMap problem use) (.LoanUseWithoutOwner use)
  let location ← required (self.eventLocationById.lookup event) (.EventWithoutLocation event)
  return self.addObservation ⟨.Loan loan, location, use⟩

/-- Place, binding and loan observations of a problem that validates. -/
def fromProblem (problem : BorrowProblem) : Except LastUseFailure LastUseAnalysis := do
  match problem.validate with
  | .error failure => .error (.Invalid failure)
  | .ok () =>
      let withUses ← problem.uses.foldlM (addUse problem) (empty problem)
      let withLoans ← problem.loans.foldlM (fun analysis loan =>
        loan.uses.foldlM (addLoanUse problem loan.id) analysis) withUses
      return withLoans.sortObservations

/-- An added observation names a point of the problem, and an event at that point if any. -/
def validateObservation (problem : BorrowProblem) (observation : LastUseObservation) :
    Except LastUseFailure Unit := do
  let point ← required problem.points[observation.location.point.index]?
    (.UnknownPoint observation.location.point)
  match observation.location.afterEvent with
  | none => return ()
  | some event => do
      let row ← required problem.events[event.index]? (.UnknownEvent event)
      if row.point = point.id then return () else .error .EventPointMismatch

def withObservations (self : LastUseAnalysis) (problem : BorrowProblem)
    (observations : List LastUseObservation) : Except LastUseFailure LastUseAnalysis := do
  let extended ← observations.foldlM (fun (analysis : LastUseAnalysis) observation => do
    validateObservation problem observation
    return analysis.addObservation observation) self
  return extended.sortObservations

/-! ## The query -/

variable (self : LastUseAnalysis)

def blockForPoint (point : PointId) : Except LastUseFailure BlockId :=
  required (self.pointBlock.lookup point) (.PointWithoutBlock point)

def startEventIndex (block : BlockId) (location : LastUseLocation) :
    Except LastUseFailure Nat := do
  let events ← required (self.eventsByBlock.lookup block) (.UnknownBlock block)
  match location.afterEvent with
  | some event => do
      let index ← required (events.idxOf? event) (.EventOutsideBlock event block)
      return index + 1
  | none =>
      return (events.findIdx? fun event =>
        (self.eventLocationById.lookup event).any fun row =>
          row.point = location.point).getD 0

/-- The event an observation is anchored at: its own, or the first at its point. -/
def eventIdForObservation (observation : LastUseObservation) : Option EventId :=
  match observation.location.afterEvent with
  | some event => some event
  | none => (self.eventLocationById.find? fun row =>
      row.2.point = observation.location.point).map Prod.fst

def observationAfterInBlock (observation : LastUseObservation) (block : BlockId)
    (startIndex : Nat) : Bool :=
  match self.eventIdForObservation observation with
  | none => false
  | some event => ((self.eventsByBlock.lookup block).bind fun events => events.idxOf? event).any
      fun index => startIndex ≤ index

def firstObservationInBlock (subject : LastUseSubject) (block : BlockId) (startIndex : Nat) :
    Option UseId :=
  (self.eventsByBlock.lookup block).bind fun events =>
    (events.drop startIndex).findSome? fun event =>
      ((self.observationsBySubject subject).find? fun observation =>
        self.eventIdForObservation observation = some event).map LastUseObservation.useId

def successorsOf (block : BlockId) : List BlockId := (self.successors.lookup block).getD []

/-- The successor rows as a graph. -/
def graph : FiniteGraph BlockId where
  nodes := self.successors.map Prod.fst
  successors block := self.successors.lookup block
  mem_nodes := by
    intro block next h
    obtain ⟨before, after, hrows, -⟩ := List.lookup_eq_some_iff.1 h
    rw [hrows]
    simp

structure BlockSummary where
  may : Bool
  must : Bool
  laterUse : Option UseId
  noUseExit : Option BlockId

/-- Whether a block observes the subject, the query block only after the query. -/
def localHasUse (subject : LastUseSubject) (queryBlock : BlockId) (queryStartIndex : Nat)
    (block : BlockId) : Bool :=
  (self.firstObservationInBlock subject block
    (if block = queryBlock then queryStartIndex else 0)).isSome

/-- MAY and MUST of one block from its successors'. -/
def nextFacts (localHasUse : BlockId → Bool) (block : BlockId) (facts : BlockId → Bool × Bool) :
    Bool × Bool :=
  let successors := self.successorsOf block
  (localHasUse block || successors.any fun successor => (facts successor).1,
    if localHasUse block then true
    else if successors = [] then false
    else successors.all fun successor => (facts successor).2)

/-- MAY and MUST facts, both growing. -/
def factAscent : Ascent (Bool × Bool) :=
  (Ascent.growing (Fin 2)).comap
    (fun facts => Finset.univ.filter fun k => if k = 0 then facts.1 = true else facts.2 = true)
    (by decide)

def blockOrder : List BlockId := (self.eventsByBlock.map Prod.fst).reverse

def solveFacts (localHasUse : BlockId → Bool) : Option (BlockId → Bool × Bool) :=
  sweepUntilStable (self.nextFacts localHasUse) self.blockOrder
    (factAscent.sweepBound self.blockOrder) fun _ => (false, false)

/-- Stop at an observation, and pass over the blocks that reach none. -/
def useStep (subject : LastUseSubject) (may : BlockId → Bool) (block : BlockId) :
    FiniteGraph.Step UseId :=
  if may block then
    match self.firstObservationInBlock subject block 0 with
    | some useId => .stop useId
    | none => .expand
  else .skip

/-- A later use on a path through blocks that may observe the subject. -/
def findSummaryUse (subject : LastUseSubject) (may : BlockId → Bool) (queryBlock : BlockId) :
    Option UseId :=
  (self.successors.lookup queryBlock).bind fun starts =>
    (self.graph.explore (self.useStep subject may) [] starts).2

/-- An exit on a path without an observation. -/
def findSummaryNoUseExit (subject : LastUseSubject) (may : BlockId → Bool)
    (queryBlock : BlockId) : Option BlockId :=
  (self.successors.lookup queryBlock).bind fun starts =>
    (self.graph.explore (fun block =>
      if (self.firstObservationInBlock subject block 0).isSome then .skip
      else if !may block && self.exits.contains block then .stop block
      else .expand) [] starts).2

/-- The exits a walk from a block sees, in id order. -/
def reachableExits (start : BlockId) : List BlockId :=
  let visited := (self.graph.explore (fun _ => (.expand : FiniteGraph.Step Empty)) [] [start]).1
  (visited.filter self.exits.contains).insertionSort fun a b => a.raw ≤ b.raw

def blockSummaries (subject : LastUseSubject) (queryBlock : BlockId) (queryStartIndex : Nat) :
    Option BlockSummary :=
  let queryLocalUse := self.firstObservationInBlock subject queryBlock queryStartIndex
  (self.solveFacts (self.localHasUse subject queryBlock queryStartIndex)).map fun facts =>
    let may := fun block => (facts block).1
    { may := may queryBlock
      must := (facts queryBlock).2
      laterUse := queryLocalUse.or (self.findSummaryUse subject may queryBlock)
      noUseExit := self.findSummaryNoUseExit subject may queryBlock }

/-- The status that a block's facts amount to. -/
def BlockSummary.status (summary : BlockSummary) : FutureUseStatus :=
  match summary.may, summary.must with
  | false, _ => .NoFutureUse
  | true, true => .MustBeUsed
  | true, false => .MayBeUsed

def summaryWitness (block : BlockId) (summary : BlockSummary) :
    Except LastUseFailure LastUseWitness :=
  match summary.status with
  | .NoFutureUse => return .NoFutureUse (self.reachableExits block)
  | .MayBeUsed => do
      let laterUse ← required summary.laterUse .MayWithoutWitness
      return .MayBeUsed laterUse summary.noUseExit
  | .MustBeUsed => do
      let laterUse ← required summary.laterUse .MustWithoutWitness
      return .MustBeUsed laterUse

/-- Query one subject after a point or event boundary; `none` if the facts do not settle. -/
def query (subject : LastUseSubject) (location : LastUseLocation) :
    Option (Except LastUseFailure LastUseResult) :=
  match self.blockForPoint location.point with
  | .error failure => some (.error failure)
  | .ok block =>
      match self.startEventIndex block location with
      | .error failure => some (.error failure)
      | .ok startIndex =>
          match ((self.observationsBySubject subject).filter fun observation =>
              self.observationAfterInBlock observation block startIndex).head? with
          | some observation =>
              some (.ok ⟨subject, location, .MustBeUsed, .MustBeUsed observation.useId⟩)
          | none =>
              (self.blockSummaries subject block startIndex).map fun summary =>
                (self.summaryWitness block summary).map fun witness =>
                  ⟨subject, location, summary.status, witness⟩

end LastUseAnalysis

end Moth.Problem
