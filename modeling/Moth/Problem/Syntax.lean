import Mathlib.Logic.Basic

/-!
# The normalized borrow problem

The vocabulary of `problem/`: program points, places, origins, uses, loans and
ordered events over an explicit control-flow graph. Rows refer to each other
by typed dense ids, one space for each table.

Inspection links to HIR, call labels, kill reasons and the mutability of a
binding are left out: neither validation nor the future-use analysis reads
them.
-/

namespace Moth.Problem

/-- The id spaces of one problem. -/
inductive IdSpace where
  | Block | Point | Event | Binding | Place | ValueOrigin | Loan | Use | Call
deriving DecidableEq

/-- A dense identity of one space. -/
structure ProblemId (space : IdSpace) where
  raw : Nat
deriving DecidableEq

abbrev BlockId := ProblemId .Block
abbrev PointId := ProblemId .Point
abbrev EventId := ProblemId .Event
abbrev BindingId := ProblemId .Binding
abbrev PlaceId := ProblemId .Place
abbrev ValueOriginId := ProblemId .ValueOrigin
abbrev LoanId := ProblemId .Loan
abbrev UseId := ProblemId .Use
abbrev CallId := ProblemId .Call

def ProblemId.index {space : IdSpace} (id : ProblemId space) : Nat := id.raw

/-! ## Places and origins -/

structure Binding where
  id : BindingId

inductive ProjectionElem where
  | Field (index : Nat)
  | FixedIndex (index : Nat)
  | DynamicIndex
  | CollectionElement
  | MapEntry
deriving DecidableEq

structure Place where
  id : PlaceId
  root : BindingId
  projections : List ProjectionElem
deriving DecidableEq

inductive CallResultUnknownReason where
  | SummaryUnknown
  | MissingSummary
  | OpaqueExternal
deriving DecidableEq

inductive CallResultProvenance where
  | Fresh
  | Alias (origins : List ValueOriginId)
  | AliasParams (indices : List Nat)
  | Unknown (reason : CallResultUnknownReason)
deriving DecidableEq

inductive OriginKind where
  | Unknown
  | Parameter (index : Nat)
  | Fresh
  | Alias (origins : List ValueOriginId)
  | ExclusiveAlias (origins : List ValueOriginId)
  | Copy (origins : List ValueOriginId)
  | Projection (source : ValueOriginId) (projection : ProjectionElem)
  | Join (origins : List ValueOriginId)
  | CallResult (call : CallId) (provenance : CallResultProvenance)
deriving DecidableEq

structure ValueOrigin where
  id : ValueOriginId
  kind : OriginKind
deriving DecidableEq

/-! ## Uses, loans and events -/

inductive AccessKind where
  | Shared
  | Exclusive
deriving DecidableEq

inductive BindingDestination where
  | Define (place : PlaceId)
  | Update (place : PlaceId)
deriving DecidableEq

def BindingDestination.place : BindingDestination → PlaceId
  | .Define place | .Update place => place

def BindingDestination.defines : BindingDestination → Bool
  | .Define _ => true
  | .Update _ => false

inductive UseKind where
  | Read
  | BindingWrite (destination : BindingDestination)
  | Write
  | LoanObservation
deriving DecidableEq

def UseKind.accessKind : UseKind → AccessKind
  | .Read | .LoanObservation => .Shared
  | .Write | .BindingWrite _ => .Exclusive

def UseKind.isWrite : UseKind → Bool
  | .Write | .BindingWrite _ => true
  | .Read | .LoanObservation => false

def UseKind.bindingDestination : UseKind → Option BindingDestination
  | .BindingWrite destination => some destination
  | .Read | .Write | .LoanObservation => none

structure Use where
  id : UseId
  point : PointId
  place : PlaceId
  kind : UseKind
  definition : Bool
deriving DecidableEq

structure Loan where
  id : LoanId
  issuedAt : PointId
  place : PlaceId
  origins : List ValueOriginId
  holders : List PlaceId
  uses : List UseId
  kills : List PointId
deriving DecidableEq

structure AggregateField where
  projection : ProjectionElem
  source : PlaceId
deriving DecidableEq

structure CallArgument where
  place : PlaceId
  access : AccessKind
  useId : UseId
deriving DecidableEq

structure CallResult where
  destination : BindingDestination
  origin : ValueOriginId
deriving DecidableEq

structure CallEffect where
  call : CallId
  arguments : List CallArgument
  results : List CallResult
deriving DecidableEq

structure Call where
  id : CallId

inductive RebindValue where
  | Fresh (origin : ValueOriginId)
  | Alias (origins : List ValueOriginId)
  | AliasFromPlace (source : PlaceId)
deriving DecidableEq

structure JumpArgument where
  source : PlaceId
  destination : BindingDestination
deriving DecidableEq

inductive TerminatorEventKind where
  | Jump (target : BlockId) (arguments : List JumpArgument)
  | Branch (targets : List BlockId)
  | Return
  | ReturnError
  | Break (target : BlockId)
  | Continue (target : BlockId)
  | RuntimeFailure
  | AssertFailure
deriving DecidableEq

inductive EventKind where
  | Fresh (destination : BindingDestination) (origin : ValueOriginId)
  | Alias (source : PlaceId) (destination : BindingDestination) (origins : List ValueOriginId)
  | AliasFromPlace (source : PlaceId) (destination : BindingDestination)
  | ExclusiveAlias (source : PlaceId) (destination : BindingDestination)
      (origins : List ValueOriginId)
  | ExclusiveAliasFromPlace (source : PlaceId) (destination : BindingDestination)
  | Copy (source : PlaceId) (destination : BindingDestination) (origin : ValueOriginId)
  | Projection (source : PlaceId) (destination : BindingDestination) (origin : ValueOriginId)
  | Rebind (destination : BindingDestination) (value : RebindValue)
  | Aggregate (destination : BindingDestination) (origin : ValueOriginId)
      (fields : List AggregateField)
  | ScopeExit (bindings : List BindingId)
  | CallArgument (call : CallId) (index : Nat) (argument : CallArgument)
  | Terminator (kind : TerminatorEventKind)
  | CallEffect (effect : CallEffect)
  | Access (useId : UseId)
  | LoanIssue (loan : LoanId)
  | LoanKill (loan : LoanId)
deriving DecidableEq

structure Event where
  id : EventId
  point : PointId
  kind : EventKind
deriving DecidableEq

/-! ## Control flow -/

structure ProgramPoint where
  id : PointId
  block : BlockId
  ordinal : Nat
deriving DecidableEq

structure CfgBlock where
  id : BlockId
  entry : PointId
  exit : PointId
  events : List EventId
deriving DecidableEq

structure CfgEdge where
  source : BlockId
  target : BlockId
deriving DecidableEq

structure ControlFlow where
  blocks : List CfgBlock
  edges : List CfgEdge
  entry : BlockId
  exits : List BlockId

structure BorrowProblem where
  bindings : List Binding
  controlFlow : ControlFlow
  points : List ProgramPoint
  places : List Place
  origins : List ValueOrigin
  loans : List Loan
  uses : List Use
  calls : List Call
  events : List Event

/-- The targets that a terminator event names. -/
def TerminatorEventKind.targets : TerminatorEventKind → List BlockId
  | .Jump target _ | .Break target | .Continue target => [target]
  | .Branch targets => targets
  | .Return | .ReturnError | .RuntimeFailure | .AssertFailure => []

/-- A terminator that leaves the function. -/
def TerminatorEventKind.isTerminal : TerminatorEventKind → Bool
  | .Return | .ReturnError | .RuntimeFailure | .AssertFailure => true
  | .Jump _ _ | .Branch _ | .Break _ | .Continue _ => false

/-- The binding an event writes, calls and jumps apart. -/
def EventKind.bindingDestination : EventKind → Option BindingDestination
  | .Fresh destination _ | .Alias _ destination _ | .AliasFromPlace _ destination
  | .ExclusiveAlias _ destination _ | .ExclusiveAliasFromPlace _ destination
  | .Copy _ destination _ | .Projection _ destination _ | .Rebind destination _
  | .Aggregate destination _ _ => some destination
  | .ScopeExit _ | .CallArgument _ _ _ | .Terminator _ | .CallEffect _ | .Access _
  | .LoanIssue _ | .LoanKill _ => none

end Moth.Problem
