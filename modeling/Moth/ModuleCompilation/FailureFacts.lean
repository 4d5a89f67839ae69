import Moth.Borrow.ReturnAlias
import Moth.Lib.Rounds
import Moth.Lib.Table
import Moth.Source.Span

/-!
# Builtin failure facts

What convergence reads of escaping builtin failures: the contributors of each
function body (`hir/failure_facts.rs`), the witness policy that the AST and
HIR walkers share (`ast/expressions/failure_facts.rs`), and the inference and
the witness search of `module_compilation/generated/convergence.rs`.

Private and generated executables are named by stable identities; a module
owns some of them under a function of its own. A `compiler_bug!` is an error
of its own, raised where the source evaluates it and not before.
-/

namespace Moth.ModuleCompilation

open Moth.Borrow Moth.Datatypes Moth.Hir Moth.Lib Moth.Source

inductive BuiltinErrorCode where
  | UnknownOrUnassigned
  | Unsupported
  | CollectionExpectedOrderedCollection
  | CollectionIndexOutOfBounds
  | CollectionFixedCapacityExceeded
  | MapExpectedOrderedMap
  | MapKeyNotFound
  | IntParseInvalidFormat
  | IntParseOutOfRange
  | FloatParseInvalidFormat
  | FloatParseOutOfRange
  | StringParseBoolInvalidFormat
  | StringParseCharInvalidFormat
  | FloatCastToIntInvalidValue
  | FloatCastToIntOutOfRange
  | IntCastOutOfRange
  | FloatCastNonFinite
  | IntCastToCharInvalidCodepoint
  | NumberParseInvalidFormat
  | NumberParseInexactScale
  | NumberCastInexact
  | NumberParseCapacity
  | DivideByZero
  | IntOverflow
  | InvalidExponent
  | FloatNonFinite
  | FloatBoundaryNonFinite
  | FloatFormatInvariant
  | InvalidLoopStep
  | RangeStepNoProgress
  | TimeInvalidTimestampText
  | TimeTimestampOutOfRange
  | HostInvalidArgument
  | HostResourceNotFound
  | HostResourceUnavailable
  | HostOperationFailed
deriving DecidableEq

namespace BuiltinErrorCode

def isImplicitNumericOrRangeFailure : BuiltinErrorCode → Bool
  | DivideByZero | IntOverflow | InvalidExponent | FloatNonFinite | InvalidLoopStep
  | RangeStepNoProgress => true
  | _ => false

def isImplicitCastFailure : BuiltinErrorCode → Bool
  | IntParseInvalidFormat | IntParseOutOfRange | FloatParseInvalidFormat | FloatParseOutOfRange
  | StringParseBoolInvalidFormat | StringParseCharInvalidFormat | FloatCastToIntInvalidValue
  | FloatCastToIntOutOfRange | IntCastOutOfRange | FloatCastNonFinite
  | IntCastToCharInvalidCodepoint | NumberParseInvalidFormat | NumberParseInexactScale
  | NumberCastInexact | NumberParseCapacity => true
  | _ => false

end BuiltinErrorCode

/-! ## The witness policy -/

inductive FailureWitnessSite where
  | Arithmetic (span : Option SourceSpan)
  | WriteBack (span : Option SourceSpan)
  | Call
deriving DecidableEq

section Policy

variable {κ ε : Type} (site : κ → FailureWitnessSite)

/-- The contributor selected so far, and the next active one. -/
def selectFailureStep (first : Option κ) (contributor : κ) : Option κ :=
  match first with
  | none => some contributor
  | some selected =>
      match site selected, site contributor with
      | .Arithmetic (some span), .WriteBack (some arithmeticSpan) =>
          if span = arithmeticSpan then some contributor else some selected
      | _, _ => some selected

def selectFailureWitness (contributors : List κ) : Option κ :=
  contributors.foldl (selectFailureStep site) none

/-- The contributors that are active, each of them asked. -/
def activeContributors (isActive : κ → Except ε Bool) : List κ → Except ε (List κ)
  | [] => .ok []
  | contributor :: rest => do
      let active ← isActive contributor
      let others ← activeContributors isActive rest
      .ok (if active then contributor :: others else others)

/-- An active write-back of the same update, after its arithmetic. -/
def findWriteBack (isActive : κ → Except ε Bool) (arithmeticSpan : SourceSpan) :
    List κ → Except ε (Option κ)
  | [] => .ok none
  | candidate :: rest =>
      if site candidate = .WriteBack (some arithmeticSpan) then do
        if ← isActive candidate then .ok (some candidate)
        else findWriteBack isActive arithmeticSpan rest
      else findWriteBack isActive arithmeticSpan rest

/-- `WitnessCandidates::next_candidate`: the next candidate, and the contributors still ahead. -/
def nextCandidate (isActive : κ → Except ε Bool) : List κ → Except ε (Option κ × List κ)
  | [] => .ok (none, [])
  | contributor :: rest => do
      if ← isActive contributor then
        match site contributor with
        | .Call => .ok (some contributor, rest)
        | .WriteBack _ | .Arithmetic none => .ok (some contributor, [])
        | .Arithmetic (some arithmeticSpan) => do
            let writeBack ← findWriteBack site isActive arithmeticSpan rest
            .ok (some (writeBack.getD contributor), [])
      else nextCandidate isActive rest

end Policy

inductive BuiltinFailureOriginKind where
  | Operation
  | CompoundWriteBack (target : TypeId)
deriving DecidableEq

structure BuiltinFailureWitness where
  callSpans : List (Option SourceSpan)
  originSpan : Option SourceSpan
  origin : BuiltinFailureOriginKind
  elidedCallHops : Nat
deriving DecidableEq

def MAX_CALL_HOPS : Nat := 3

def retainBoundedWitnessHops (witness : BuiltinFailureWitness)
    (hops : List (Option SourceSpan)) : BuiltinFailureWitness :=
  { witness with
    elidedCallHops := hops.length - MAX_CALL_HOPS
    callSpans := hops.take MAX_CALL_HOPS }

/-! ## The facts of a module -/

inductive HirBuiltinFailureSource where
  | NumericOperation
  | AuthoredCastConversion
  | CompoundWriteBack (target : TypeId) (arithmeticSpan : Option SourceSpan)
  | Call (target : CallTarget)
deriving DecidableEq

structure HirBuiltinFailureContributor where
  source : HirBuiltinFailureSource
  span : Option SourceSpan
  codes : List BuiltinErrorCode
deriving DecidableEq

def HirBuiltinFailureContributor.witnessSite (self : HirBuiltinFailureContributor) :
    FailureWitnessSite :=
  match self.source with
  | .NumericOperation | .AuthoredCastConversion => .Arithmetic self.span
  | .CompoundWriteBack _ arithmeticSpan => .WriteBack arithmeticSpan
  | .Call _ => .Call

inductive HirBuiltinFailureBoundary where
  | InferPrivate
  | BuiltinErrorSlot
  | CustomErrorSlot (errorType : TypeId)
  | ExportedNoSlot
deriving DecidableEq

structure HirFunctionFailureFacts where
  boundary : HirBuiltinFailureBoundary
  contributors : List HirBuiltinFailureContributor

/-- What inference and the search read of a module: its functions and their facts, the functions
it owns under stable identities, and the summaries installed for the calls that leave it. -/
structure ConvergenceModule where
  functions : List FunctionId
  functionFailureFacts : List (FunctionId × HirFunctionFailureFacts)
  functionIdsByPrivateOrigin : Nat → Option FunctionId
  functionIdsByGenerated : Nat → Option FunctionId
  importedCallSummaries : Nat → Option PublicCallSummary
  modulePrivateCallSummaries : Nat → Option PublicCallSummary
  generatedCallSummaries : Nat → Option PublicCallSummary

/-- The summaries of a borrow report. -/
abbrev PublicCallSummaries : Type := FunctionId → Option PublicCallSummary

/-- The internal failures; a fuel that ends is none of the source's. -/
inductive CompilerBug where
  | missingFunctionFacts (function : FunctionId)
  | missingCallSummary (function : FunctionId)
  | lostCallSummary
  | missingTargetSummary (target : CallTarget)
  | externalContributor
  | numericCodes
  | writeBackCodes
  | castCodes
  | fuelEnded
deriving DecidableEq

section Activity

variable (hir : ConvergenceModule) (report : PublicCallSummaries)

def retainedCallSummary : CallTarget → Except CompilerBug (Option PublicCallSummary)
  | .Local function => .ok (report function)
  | .CrossModule origin => .ok (hir.importedCallSummaries origin)
  | .ModulePrivate identity => .ok (hir.modulePrivateCallSummaries identity)
  | .Generated identity => .ok (hir.generatedCallSummaries identity)
  | .External _ => .error .externalContributor

def callEscapesBuiltinFailure (target : CallTarget) : Except CompilerBug Bool := do
  match ← retainedCallSummary hir report target with
  | none => .error (.missingTargetSummary target)
  | some summary => .ok summary.escapesBuiltinFailure

def functionFailureFacts (function : FunctionId) : Except CompilerBug HirFunctionFailureFacts :=
  match hir.functionFailureFacts.lookup function with
  | none => .error (.missingFunctionFacts function)
  | some facts => .ok facts

def builtinFailureContributorIsActive (contributor : HirBuiltinFailureContributor) :
    Except CompilerBug Bool :=
  match contributor.source with
  | .NumericOperation =>
      if contributor.codes.isEmpty ||
          contributor.codes.any fun code => !code.isImplicitNumericOrRangeFailure then
        .error .numericCodes
      else .ok true
  | .CompoundWriteBack _ _ =>
      if contributor.codes.isEmpty ||
          contributor.codes.any fun code => !code.isImplicitCastFailure then
        .error .writeBackCodes
      else .ok true
  | .AuthoredCastConversion =>
      if contributor.codes.any fun code => !code.isImplicitCastFailure then .error .castCodes
      else .ok true
  | .Call target => callEscapesBuiltinFailure hir report target

def activeBuiltinFailureContributor (function : FunctionId) :
    Except CompilerBug (Option HirBuiltinFailureContributor) := do
  let facts ← functionFailureFacts hir function
  let active ← activeContributors (builtinFailureContributorIsActive hir report) facts.contributors
  .ok (selectFailureWitness HirBuiltinFailureContributor.witnessSite active)

end Activity

/-! ## Inference -/

section Inference

variable (hir : ConvergenceModule)

def setEscapes (report : PublicCallSummaries) (function : FunctionId)
    (summary : PublicCallSummary) (escapes : Bool) : PublicCallSummaries :=
  Function.update report function (some { summary with escapesBuiltinFailure := escapes })

/-- Every function of the module starts from a summary without the bit. -/
def resetSummaries : List FunctionId → PublicCallSummaries →
    Except CompilerBug PublicCallSummaries
  | [], report => .ok report
  | function :: rest, report =>
      match report function with
      | none => .error (.missingCallSummary function)
      | some summary => resetSummaries rest (setEscapes report function summary false)

/-- One function of a round. -/
def inferFunction (function : FunctionId) (report : PublicCallSummaries) :
    Except CompilerBug (PublicCallSummaries × Bool) := do
  let active ← activeBuiltinFailureContributor hir report function
  let infer := (hir.functionFailureFacts.lookup function).any fun facts =>
    facts.boundary = .InferPrivate
  match report function with
  | none => .error .lostCallSummary
  | some summary =>
      if infer && active.isSome && !summary.escapesBuiltinFailure then
        .ok (setEscapes report function summary true, true)
      else .ok (report, false)

def inferBuiltinFailureSummaries (report : PublicCallSummaries) :
    Except CompilerBug PublicCallSummaries := do
  let start ← resetSummaries hir.functions report
  rounds (inPlace (inferFunction hir) hir.functions) .fuelEnded (hir.functions.length + 1) start

end Inference

/-! ## The witness search -/

section Search

variable (hir : ConvergenceModule) (report : PublicCallSummaries)

/-- The function of this module that a call enters, if the module owns it. -/
def ownedCallee : CallTarget → Option FunctionId
  | .Local function => some function
  | .ModulePrivate identity => hir.functionIdsByPrivateOrigin identity
  | .Generated identity => hir.functionIdsByGenerated identity
  | .CrossModule _ | .External _ => none

/-- The state of the search: a cursor for each entered body on the path and the hop into it, the
innermost first, and the entered functions. -/
structure WitnessSearch where
  next : Option HirBuiltinFailureContributor
  stack : List (List HirBuiltinFailureContributor)
  hops : List (Option SourceSpan)
  entered : List FunctionId

/-- What the search ends with: the origin if it found one, and the hops to it. -/
structure WitnessFound where
  originSpan : Option SourceSpan
  origin : BuiltinFailureOriginKind
  hops : List (Option SourceSpan)

/-- The first half of a turn: follow the candidate at hand. -/
def followCandidate (search : WitnessSearch) :
    Except CompilerBug (WitnessFound ⊕ WitnessSearch) :=
  match search.next with
  | none => .ok (.inr search)
  | some contributor =>
      match contributor.source with
      | .NumericOperation | .AuthoredCastConversion =>
          .ok (.inl ⟨contributor.span, .Operation, search.hops⟩)
      | .CompoundWriteBack target _ =>
          .ok (.inl ⟨contributor.span, .CompoundWriteBack target, search.hops⟩)
      | .Call target =>
          match ownedCallee hir target with
          | none => .ok (.inl ⟨none, .Operation, contributor.span :: search.hops⟩)
          | some callee =>
              if callee ∈ search.entered then .ok (.inr { search with next := none })
              else do
                let facts ← functionFailureFacts hir callee
                .ok (.inr {
                  next := none
                  stack := facts.contributors :: search.stack
                  hops := contributor.span :: search.hops
                  entered := callee :: search.entered })

/-- The second half: the next candidate of the innermost body, or leave it. -/
def takeCandidate (search : WitnessSearch) :
    Except CompilerBug (WitnessFound ⊕ WitnessSearch) :=
  match search.stack with
  | [] => .ok (.inl ⟨none, .Operation, search.hops⟩)
  | cursor :: stack => do
      let (candidate, ahead) ← nextCandidate HirBuiltinFailureContributor.witnessSite
        (builtinFailureContributorIsActive hir report) cursor
      match candidate with
      | some contributor =>
          .ok (.inr { search with next := some contributor, stack := ahead :: stack })
      | none => .ok (.inr { search with next := none, stack, hops := search.hops.tail })

/-- The turns of the search, with the functions it has entered at the end. -/
def searchTurns : Nat → WitnessSearch →
    Option (Except CompilerBug (WitnessFound × List FunctionId))
  | 0, _ => none
  | fuel + 1, search =>
      match followCandidate hir search with
      | .error bug => some (.error bug)
      | .ok (.inl found) => some (.ok (found, search.entered))
      | .ok (.inr followed) =>
          match takeCandidate hir report followed with
          | .error bug => some (.error bug)
          | .ok (.inl found) => some (.ok (found, followed.entered))
          | .ok (.inr search) => searchTurns fuel search

/-- Each body is entered once and each of its contributors taken once. -/
def ConvergenceModule.searchFuel (hir : ConvergenceModule) : Nat :=
  (hir.functionFailureFacts.map fun row => row.2.contributors.length + 2).sum + 2

def WitnessFound.witness (found : WitnessFound) : BuiltinFailureWitness :=
  retainBoundedWitnessHops ⟨[], found.originSpan, found.origin, 0⟩ found.hops.reverse

/-- The witness, and the functions entered on the way, the first one last. -/
def builtinFailureWitnessSearch (contributor : HirBuiltinFailureContributor)
    (entered : List FunctionId) :
    Option (Except CompilerBug (BuiltinFailureWitness × List FunctionId)) :=
  (searchTurns hir report hir.searchFuel ⟨some contributor, [], [], entered⟩).map fun result =>
    result.map fun answer => (answer.1.witness, answer.2)

def builtinFailureWitness (function : FunctionId) (contributor : HirBuiltinFailureContributor) :
    Option (Except CompilerBug (BuiltinFailureWitness × List FunctionId)) :=
  builtinFailureWitnessSearch hir report contributor [function]

end Search

end Moth.ModuleCompilation
