import Moth.Borrow.Layout
import Moth.Lib.Result

/-!
# Access conflicts

The mutable accesses of `conflicts.rs` with the statement tracker of
`facts.rs`. An access to a set of roots is checked root by root: against what
the same statement has already done to the root, then against the locals whose
bindings still hold the root. It counts the active holders, the acting local
included when it holds the root itself, and rejects a count above one.

Whether a holder is active depends on its row and on two readings of the
layout: the last use in traversal order, and the uses that the paths from the
current point still make. Source spans and the work counters are left out.
-/

namespace Moth.Borrow

open Moth.Hir

inductive AccessKind where
  | Shared
  | Mutable
deriving DecidableEq

inductive DiagnosticPlace where
  | Local (target : LocalId)
  | Unknown
deriving DecidableEq

inductive InvalidMutableAccessReason where
  | ImmutablePlace
  | OverlappingAccess
  | AliasedValueRequiresExclusiveAccess
deriving DecidableEq

inductive BorrowDiagnostic where
  | MultipleMutableBorrows (place : DiagnosticPlace) (conflictingPlace : Option DiagnosticPlace)
  | SharedMutableConflict (place : DiagnosticPlace) (existingAccess requestedAccess : AccessKind)
      (conflictingPlace : Option DiagnosticPlace)
  | InvalidMutableAccess (place : DiagnosticPlace) (reason : InvalidMutableAccessReason)
      (conflictingPlace : Option DiagnosticPlace)
  | UseOfUninitializedLocal (place : DiagnosticPlace)
deriving DecidableEq

inductive BorrowCheckError where
  | Diagnostic (diagnostic : BorrowDiagnostic)
  | Infrastructure
deriving DecidableEq

/-- What one statement has done to each root so far. -/
structure StatementAccessTracker (n : Nat) where
  rootAccess : Fin n → Option AccessKind
  sharedRoots : RootSet n
  mutableRoots : RootSet n
deriving DecidableEq

namespace StatementAccessTracker

variable {n : Nat}

def new (n : Nat) : StatementAccessTracker n := ⟨fun _ => none, ∅, ∅⟩

/-- The earlier access that a new one conflicts with: any pair but two shared ones. -/
def conflict (self : StatementAccessTracker n) (root : Fin n) (newAccess : AccessKind) :
    Option AccessKind :=
  match self.rootAccess root, newAccess with
  | none, _ => none
  | some .Shared, .Shared => none
  | some existing, _ => some existing

def record (self : StatementAccessTracker n) (root : Fin n) (access : AccessKind) :
    StatementAccessTracker n where
  rootAccess :=
    match self.rootAccess root, access with
    | some .Mutable, _ => self.rootAccess
    | _, .Mutable => Function.update self.rootAccess root (some .Mutable)
    | none, .Shared => Function.update self.rootAccess root (some .Shared)
    | some .Shared, .Shared => self.rootAccess
  sharedRoots := if access = .Shared then insert root self.sharedRoots else self.sharedRoots
  mutableRoots := if access = .Mutable then insert root self.mutableRoots else self.mutableRoots

end StatementAccessTracker

/-- Which overlapping aliases block an exclusive access to a written root. -/
inductive AliasExclusivity where
  | Direct
  | All
deriving DecidableEq

structure MutableAccessPolicy where
  allowPriorShared : Bool
  requireRootMutable : Bool
  strictMoveExclusivity : Bool
  aliasExclusivity : AliasExclusivity
deriving DecidableEq

/-- One access under check: the acting local, if the access has one, and the point. -/
structure AccessCheckContext (n : Nat) where
  hir : HirModule
  layout : FunctionLayout n
  state : BorrowState n
  block : BlockId
  currentOrder : Int
  actorIndexHint : Option (Fin n)

namespace AccessCheckContext

variable {n : Nat} (check : AccessCheckContext n)

def localPlace (i : Fin n) : DiagnosticPlace := .Local (check.layout.localIds i)

def originKind (i : Fin n) : Option HirLocalOriginKind :=
  check.hir.localOriginKind (check.layout.localIds i)

/-- Limits the retention of future uses on paths to the accesses that the source makes. -/
def preservesCfgFutureUseActivity : Bool :=
  match check.actorIndexHint with
  | none => true
  | some actor => decide (check.originKind actor ≠ some .CompilerTemp)

def hasCfgFutureUseAfterLinearExpiry (i : Fin n) : Bool :=
  check.layout.localIsExpired i check.currentOrder &&
    decide (check.layout.futureUseKind check.block i check.currentOrder ≠ .None)

/-- A source-declared mutable alias view. -/
def isSourceMutableAlias (i : Fin n) : Bool :=
  check.layout.localMutable i && (check.state.localState i).mode.contains .ALIAS &&
    !decide (check.originKind i = some .CompilerTemp ∨
      check.originKind i = some .CompilerFreshMutableArg)

/-- The strict rule for a holder with value aliases and no use left. -/
def strictlyHolds (root i : Fin n) : Bool :=
  decide (root ∈ (check.state.localState i).directAliasRoots) || check.layout.localMutable i

/-- Whether a candidate alias can still take part in an exclusivity conflict. -/
def isLocalActiveForAliasConflict (root i : Fin n) (strictMoveExclusivity : Bool) : Bool :=
  let row := check.state.localState i
  let usedFromHere :=
    decide (check.layout.futureUseKind check.block i (check.currentOrder - 1) ≠ .None)
  if !strictMoveExclusivity && !row.mode.contains .ALIAS then usedFromHere
  else if 0 ≤ check.layout.localLastUseOrder i then
    if !check.layout.localIsExpired i check.currentOrder &&
        (!row.hasValueAliases || !check.preservesCfgFutureUseActivity || usedFromHere) then true
    else if !row.hasValueAliases then false
    -- an assignment through an alias view writes its referent, which read liveness does not see
    else if check.preservesCfgFutureUseActivity && check.isSourceMutableAlias i &&
        check.layout.localHasFutureAssignment check.block i then true
    else if check.preservesCfgFutureUseActivity && check.hasCfgFutureUseAfterLinearExpiry i then
      true
    else if strictMoveExclusivity then check.strictlyHolds root i
    else false
  else if !row.hasValueAliases then false
  else if strictMoveExclusivity then check.strictlyHolds root i
  -- an unused mutable alias stays active until the end of its scope
  else check.layout.localMutable i

/-- Whether a candidate alias observes a write to the root of this binding cell. -/
def aliasObservesCellWrite (root candidate : Fin n) (directAliasOnly : Bool) : Bool :=
  !directAliasOnly || decide (root ∈ (check.state.localState candidate).directAliasRoots)

/-- The acting local is an alias view of another local's root. -/
def actorIsAliasForRoot (root actor : Fin n) : Bool :=
  decide (actor ≠ root) && (check.state.localState actor).isAliasOnly &&
    decide (root ∈ (check.state.localState actor).valueRoots)

/-- A candidate other than the acting local that holds the root and is active. -/
def isConflicting (root actor : Fin n) (strictMoveExclusivity directAliasOnly : Bool)
    (candidate : Fin n) : Bool :=
  if check.actorIsAliasForRoot root actor && decide (candidate = root) then false
  else if candidate = actor then false
  else if !check.state.effectiveRootContains candidate root then false
  else if !check.aliasObservesCellWrite root candidate directAliasOnly then false
  else check.isLocalActiveForAliasConflict root candidate strictMoveExclusivity

/-- A candidate that the holder count includes: the acting local by holding the root alone. -/
def isCounted (root actor : Fin n) (strictMoveExclusivity directAliasOnly : Bool)
    (candidate : Fin n) : Bool :=
  if check.actorIsAliasForRoot root actor && decide (candidate = root) then false
  else if !check.state.effectiveRootContains candidate root then false
  else if candidate = actor then true
  else if !check.aliasObservesCellWrite root candidate directAliasOnly then false
  else check.isLocalActiveForAliasConflict root candidate strictMoveExclusivity

def activeAliasCountForRoot (root actor : Fin n) (strictMoveExclusivity directAliasOnly : Bool) :
    Nat :=
  (List.finRange n).countP
    (check.isCounted root actor strictMoveExclusivity directAliasOnly)

def conflictingActiveLocalForRoot (root actor : Fin n)
    (strictMoveExclusivity directAliasOnly : Bool) : Option (Fin n) :=
  (List.finRange n).find?
    (check.isConflicting root actor strictMoveExclusivity directAliasOnly)

def isSharedAliasConflict (i : Fin n) : Bool :=
  !check.layout.localMutable i || decide (check.originKind i = some .CompilerTemp)

/-- The diagnostic of a root with more than one active holder. -/
def exclusivityDiagnostic (policy : MutableAccessPolicy) (root actor : Fin n) : BorrowDiagnostic :=
  let directAliasOnly := decide (policy.aliasExclusivity = .Direct)
  let conflicting := check.conflictingActiveLocalForRoot root actor policy.strictMoveExclusivity
    directAliasOnly
  if !policy.strictMoveExclusivity && conflicting.any fun i =>
      check.preservesCfgFutureUseActivity && check.hasCfgFutureUseAfterLinearExpiry i &&
        check.isSharedAliasConflict i then
    .SharedMutableConflict (check.localPlace actor) .Shared .Mutable
      (conflicting.map check.localPlace)
  else
    .InvalidMutableAccess (check.localPlace actor) .AliasedValueRequiresExclusiveAccess
      (some ((conflicting.map check.localPlace).getD .Unknown))

/-- One root of a mutable access. -/
def checkMutableRoot (policy : MutableAccessPolicy) (tracker : StatementAccessTracker n)
    (root : Fin n) : Except BorrowCheckError (StatementAccessTracker n) :=
  let actor := check.actorIndexHint.getD root
  let holders := check.activeAliasCountForRoot root actor policy.strictMoveExclusivity
    (decide (policy.aliasExclusivity = .Direct))
  let prior := (tracker.conflict root .Mutable).filter fun existing =>
    !(policy.allowPriorShared && decide (existing = .Shared))
  match prior with
  | some .Mutable => .error (.Diagnostic (.MultipleMutableBorrows (check.localPlace root) none))
  | some .Shared =>
      .error (.Diagnostic (.SharedMutableConflict (check.localPlace root) .Shared .Mutable none))
  | none =>
      if policy.requireRootMutable && !check.layout.localMutable root then
        .error (.Diagnostic (.InvalidMutableAccess (check.localPlace root) .ImmutablePlace none))
      else if 1 < holders then
        .error (.Diagnostic (check.exclusivityDiagnostic policy root actor))
      else .ok (tracker.record root .Mutable)

def checkMutableAccess (roots : RootSet n) (policy : MutableAccessPolicy)
    (tracker : StatementAccessTracker n) : Except BorrowCheckError (StatementAccessTracker n) :=
  roots.iterOnes.foldlM (check.checkMutableRoot policy) tracker

end AccessCheckContext

end Moth.Borrow
