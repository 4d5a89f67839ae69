import Mathlib.Data.Finset.Insert
import Mathlib.Data.Finset.Erase
import Moth.Source.Span
import Moth.Symbols.PathInterner

/-!
# Ordering the headers of a module

`module_dependencies.rs`: the retained hints of the top-level headers are
resolved into edges of a graph, a depth-first search sorts it, and the
`start` headers are appended. A map is a list of its entries, the latest
first, and a hash set is a list in the order it is iterated.

A result is absent where the original panics, or where the recursion would be
deeper than its fuel; the caller passes one more than the number of headers.
Counters, token bodies and the symbol package built afterwards are left out.
-/

namespace Moth.Headers

open Moth.Symbols Moth.Source

/-! ## Headers and hints -/

inductive LocalDeclarationOrderingHintOrigin where
  | sourceOwned
  | providerSpelling
  | qualifiedTypeSpelling
  | contentSource
deriving DecidableEq

structure PathSyntaxId where
  index : Nat
deriving DecidableEq

structure LocalDeclarationOrderingHint where
  path : PathId
  origin : LocalDeclarationOrderingHintOrigin
  occurrence : Option PathSyntaxId
  occurrenceSpan : Option SourceSpan

/-- The kinds of `HeaderKind`, without the syntax each retains. -/
inductive HeaderKind where
  | function
  | constant
  | struct
  | choice
  | typeAlias
  | constTemplate
  | startFunction
  | trait
  | traitConformance
  | traitIncompatibility
deriving DecidableEq

/-- What ordering reads of a header; `source` is the owner of its body range. -/
structure Header where
  kind : HeaderKind
  localOrderingHints : List LocalDeclarationOrderingHint
  nameSpan : Option SourceSpan
  source : SourceId
  declarationPath : PathId

structure PublicExportEntry where
  exportName : StringId

/-- What the path interner and the string table answer for the paths of a module. -/
structure PathNames where
  components : PathId → List StringId
  component : PathId → Option StringId
  parent : PathId → Option PathId
  renderPortable : PathId → String
  resolve : StringId → String

/-- The `content` constant of each resolved content occurrence. -/
structure ContentSourceTargets where
  targets : List ((SourceId × PathSyntaxId) × PathId)

def ContentSourceTargets.contentHeaderPath (self : ContentSourceTargets)
    (hint : LocalDeclarationOrderingHint) (referencingFile : SourceId) : Option PathId := do
  self.targets.lookup (referencingFile, ← hint.occurrence)

/-! ## Package prefixes -/

/-- How many leading components spell the parts of a prefix, if they all do. -/
def matchedComponents (resolve : StringId → String) (components : List StringId) :
    List String → Nat → Option Nat
  | [], matched => some matched
  | expected :: rest, matched => do
      let actual ← components[matched]?
      if resolve actual ≠ expected then none
      else matchedComponents resolve components rest (matched + 1)

def matchPackagePrefix (prefixes : List String) (components : List StringId)
    (resolve : StringId → String) : Option (String × Nat) :=
  prefixes.findSome? fun packagePrefix =>
    (matchedComponents resolve components (packagePrefix.splitOn "/") 0).map fun matched =>
      (packagePrefix, matched)

/-! ## The graph -/

inductive ResolvedGraphPath where
  | header (path : PathId)
  | providerInterface (path : PathId)
  | sourcePackagePublicExport (path : PathId)

inductive DependencyEdgeKind where
  | graphHeader
  | providerInterface
  | sourcePackagePublicExport
  | sameFileSymbolHint
  | missingContentSource
  | missing
deriving DecidableEq

structure ResolvedDependencyEdge where
  requestedPath : PathId
  resolvedPath : Option PathId
  span : Option SourceSpan
  sourceOrder : Option Nat
  kind : DependencyEdgeKind

def usizeMax : Nat := 18446744073709551615

structure DependencyGraph where
  headersByPath : List (PathId × Header)
  sourceOrderByPath : List (PathId × Nat)
  orderedPaths : List PathId
  sourcePackagePublicExports : List (String × List PublicExportEntry)
  providerInterfacePaths : List PathId
  contentSourceTargets : ContentSourceTargets
  sourcePathsBySourceId : SourceId → Option PathId

namespace DependencyGraph

variable (self : DependencyGraph) (names : PathNames)

def headerForPath (path : PathId) : Option Header := self.headersByPath.lookup path

def isSourcePackagePublicExportPath (path : PathId) : Bool :=
  match matchPackagePrefix (self.sourcePackagePublicExports.map Prod.fst) (names.components path)
      names.resolve with
  | none => false
  | some (packagePrefix, _) =>
      match names.component path with
      | none => false
      | some exportName =>
          (self.sourcePackagePublicExports.lookup packagePrefix).any fun entries =>
            entries.any fun entry => entry.exportName == exportName

def resolveRequestedPath (requestedPath : PathId) : Option ResolvedGraphPath :=
  if (self.headerForPath requestedPath).isSome then some (.header requestedPath)
  else if requestedPath ∈ self.providerInterfacePaths then
    some (.providerInterface requestedPath)
  else if self.isSourcePackagePublicExportPath names requestedPath then
    some (.sourcePackagePublicExport requestedPath)
  else none

def sourceOrderForRequestedPath (requestedPath : PathId) : Option Nat :=
  match self.resolveRequestedPath names requestedPath with
  | some (.header path) => self.sourceOrderByPath.lookup path
  | _ => none

def isSameFileSymbolHint (path sourceFile : PathId) : Bool :=
  decide (names.parent path = some sourceFile)

def resolveDependencyEdge (header : Header) (hint : LocalDeclarationOrderingHint) :
    Option ResolvedDependencyEdge :=
  let span := if hint.origin = .contentSource then hint.occurrenceSpan.or header.nameSpan
    else header.nameSpan
  let requested := if hint.origin = .contentSource then
      self.contentSourceTargets.contentHeaderPath hint header.source
    else some hint.path
  match requested with
  | none => some ⟨hint.path, none, span, none, .missingContentSource⟩
  | some requestedPath =>
      let sourceOrder := self.sourceOrderForRequestedPath names requestedPath
      match self.resolveRequestedPath names requestedPath with
      | some (.header path) => some ⟨requestedPath, some path, span, sourceOrder, .graphHeader⟩
      | some (.sourcePackagePublicExport path) =>
          some ⟨requestedPath, some path, span, sourceOrder, .sourcePackagePublicExport⟩
      | some (.providerInterface path) =>
          some ⟨requestedPath, some path, span, sourceOrder, .providerInterface⟩
      | none => do
          let sourceFile ← self.sourcePathsBySourceId header.source
          if isSameFileSymbolHint names requestedPath sourceFile then
            some ⟨requestedPath, none, span, sourceOrder, .sameFileSymbolHint⟩
          else if hint.origin = .contentSource then
            some ⟨requestedPath, none, span, sourceOrder, .missingContentSource⟩
          else some ⟨requestedPath, none, span, sourceOrder, .missing⟩

/-- The first edge to each resolved target, and every edge without one. -/
def keepFirst : List PathId → List ResolvedDependencyEdge → List ResolvedDependencyEdge
  | _, [] => []
  | seenTargets, edge :: rest =>
      match edge.resolvedPath with
      | none => edge :: keepFirst seenTargets rest
      | some path =>
          if path ∈ seenTargets then keepFirst seenTargets rest
          else edge :: keepFirst (path :: seenTargets) rest

def sourceOrderForEdge (edge : ResolvedDependencyEdge) : Nat := edge.sourceOrder.getD usizeMax

/-- By source order, then by rendered text. -/
def edgeLe (left right : ResolvedDependencyEdge) : Bool :=
  if sourceOrderForEdge left = sourceOrderForEdge right then
    decide (names.renderPortable left.requestedPath ≤ names.renderPortable right.requestedPath)
  else decide (sourceOrderForEdge left < sourceOrderForEdge right)

def sortedDependencyEdgesForHeader (header : Header) : Option (List ResolvedDependencyEdge) := do
  let resolved ← header.localOrderingHints.mapM (self.resolveDependencyEdge names header)
  pure ((keepFirst [] resolved).mergeSort (edgeLe names))

def fromHeaders (headers : List Header)
    (sourcePackagePublicExports : List (String × List PublicExportEntry))
    (providerInterfacePaths : List PathId) (contentSourceTargets : ContentSourceTargets)
    (sourcePathsBySourceId : SourceId → Option PathId) : DependencyGraph where
  headersByPath := (headers.map fun header => (header.declarationPath, header)).reverse
  sourceOrderByPath := (headers.zipIdx.map fun row => (row.1.declarationPath, row.2)).reverse
  orderedPaths := headers.map Header.declarationPath
  sourcePackagePublicExports
  providerInterfacePaths
  contentSourceTargets
  sourcePathsBySourceId

end DependencyGraph

/-! ## The search -/

structure DependencyTracker where
  tempMark : Finset PathId
  visited : Finset PathId
  stack : List PathId
  visitCount : Nat

namespace DependencyTracker

def new : DependencyTracker := ⟨∅, ∅, [], 0⟩

variable (self : DependencyTracker) (path : PathId)

def enter : DependencyTracker :=
  { self with tempMark := insert path self.tempMark, stack := self.stack ++ [path] }

def abandon : DependencyTracker :=
  { self with
    tempMark := self.tempMark.erase path
    stack := if self.stack.getLast? = some path then self.stack.dropLast
      else self.stack.filter fun stackPath => decide (stackPath ≠ path) }

def markVisited : DependencyTracker := { self with visited := insert path self.visited }

def finish : DependencyTracker := (self.abandon path).markVisited path

def countVisit : DependencyTracker := { self with visitCount := self.visitCount + 1 }

end DependencyTracker

inductive DiagnosticDraft where
  | missingImportTarget (path : PathId) (span : Option SourceSpan)
  | circularDependency (path : PathId) (span : Option SourceSpan)

abbrev VisitResult : Type := Except DiagnosticDraft Unit

/-- A result together with the tracker and the sorted headers it leaves. -/
abbrev Visit : Type := Option (VisitResult × DependencyTracker × List Header)

def visitDependencyEdge
    (visitNode : PathId → Option SourceSpan → DependencyTracker → List Header → Visit)
    (edge : ResolvedDependencyEdge) (tracker : DependencyTracker) (sorted : List Header) : Visit :=
  match edge.kind with
  | .graphHeader => do visitNode (← edge.resolvedPath) edge.span tracker sorted
  | .providerInterface | .sourcePackagePublicExport =>
      some (.ok (), edge.resolvedPath.elim tracker tracker.markVisited, sorted)
  | .sameFileSymbolHint | .missingContentSource => some (.ok (), tracker, sorted)
  | .missing => some (.error (.missingImportTarget edge.requestedPath edge.span), tracker, sorted)

/-- The edges in turn, up to the first that fails. -/
def visitDependencyEdges
    (visitNode : PathId → Option SourceSpan → DependencyTracker → List Header → Visit) :
    List ResolvedDependencyEdge → DependencyTracker → List Header → Visit
  | [], tracker, sorted => some (.ok (), tracker, sorted)
  | edge :: rest, tracker, sorted => do
      match ← visitDependencyEdge visitNode edge tracker sorted with
      | (.ok (), tracker, sorted) => visitDependencyEdges visitNode rest tracker sorted
      | (.error error, tracker, sorted) => some (.error error, tracker, sorted)

def visitNode (names : PathNames) (graph : DependencyGraph) :
    Nat → PathId → Option SourceSpan → DependencyTracker → List Header → Visit
  | 0, _, _, _, _ => none
  | fuel + 1, nodePath, diagnosticSpan, tracker, sorted =>
      let tracker := tracker.countVisit
      match graph.resolveRequestedPath names nodePath with
      | none => some (.error (.missingImportTarget nodePath diagnosticSpan), tracker, sorted)
      | some (.providerInterface path) => some (.ok (), tracker.markVisited path, sorted)
      | some (.sourcePackagePublicExport path) => some (.ok (), tracker.markVisited path, sorted)
      | some (.header path) =>
          if path ∈ tracker.tempMark then
            some (.error (.circularDependency path diagnosticSpan), tracker, sorted)
          else if path ∈ tracker.visited then some (.ok (), tracker, sorted)
          else do
            let header ← graph.headerForPath path
            let dependencyEdges ← graph.sortedDependencyEdgesForHeader names header
            match ← visitDependencyEdges (visitNode names graph fuel) dependencyEdges
                (tracker.enter path) sorted with
            | (.error error, tracker, sorted) =>
                some (.error error, tracker.abandon path, sorted)
            | (.ok (), tracker, sorted) =>
                some (.ok (), tracker.finish path, sorted ++ [header])

/-- Every path not yet visited, collecting what fails. -/
def visitOrderedPaths (names : PathNames) (graph : DependencyGraph) (fuel : Nat) :
    List PathId → DependencyTracker → List Header → List DiagnosticDraft →
      Option (List DiagnosticDraft × List Header)
  | [], _, sorted, diagnosticBag => some (diagnosticBag, sorted)
  | path :: rest, tracker, sorted, diagnosticBag =>
      if path ∈ tracker.visited then
        visitOrderedPaths names graph fuel rest tracker sorted diagnosticBag
      else do
        let diagnosticSpan := (graph.headerForPath path).bind Header.nameSpan
        match ← visitNode names graph fuel path diagnosticSpan tracker sorted with
        | (.ok (), tracker, sorted) =>
            visitOrderedPaths names graph fuel rest tracker sorted diagnosticBag
        | (.error error, tracker, sorted) =>
            visitOrderedPaths names graph fuel rest tracker sorted (diagnosticBag ++ [error])

/-- The headers of a module and what binding prepared for them. -/
structure BoundModuleHeaders where
  headers : List Header
  sourcePackagePublicExports : List (String × List PublicExportEntry)
  importedDeclarationsByLocalPath : List PathId
  sourcePathsBySourceId : SourceId → Option PathId
  /-- A header is parsed from a prepared file, which records its path. -/
  prepared : ∀ header ∈ headers, (sourcePathsBySourceId header.source).isSome

def Header.isStart (header : Header) : Bool := decide (header.kind = .startFunction)

namespace BoundModuleHeaders

variable (parsed : BoundModuleHeaders)

def startHeaders : List Header := parsed.headers.filter Header.isStart

def topLevelHeaders : List Header := parsed.headers.filter fun header => !header.isStart

def graph (contentSourceTargets : ContentSourceTargets) : DependencyGraph :=
  .fromHeaders parsed.topLevelHeaders parsed.sourcePackagePublicExports
    parsed.importedDeclarationsByLocalPath contentSourceTargets parsed.sourcePathsBySourceId

end BoundModuleHeaders

def resolveModuleDependencies (parsed : BoundModuleHeaders)
    (contentSourceTargets : ContentSourceTargets) (names : PathNames) :
    Option (Except (List DiagnosticDraft) (List Header)) := do
  let graph := parsed.graph contentSourceTargets
  let (diagnosticBag, sorted) ←
    visitOrderedPaths names graph (parsed.topLevelHeaders.length + 1) graph.orderedPaths
      .new [] []
  if diagnosticBag.isEmpty then some (.ok (sorted ++ parsed.startHeaders))
  else some (.error diagnosticBag)

end Moth.Headers
