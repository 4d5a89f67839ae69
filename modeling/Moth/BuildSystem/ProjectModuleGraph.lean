import Moth.Lib.BinarySearch

/-!
# The project module graph

`build_system/create_project_modules/project_module_graph.rs`: dependency
edges between modules, and the compile waves over them. A module id is its
index. What panics in the original has no result here.
-/

namespace Moth.BuildSystem

open Moth.Lib

structure ProjectModuleGraphNode where
  moduleId : Nat
  logicalModulePath : String

/-- One adjacency at a time. A `BTreeSet` and the vector it is frozen to are the same list. -/
inductive ProjectModuleDependencies where
  | underConstruction (dependencyProviders providerConsumers : List (List Nat))
  | frozen (dependencyProviders providerConsumers : List (List Nat))

structure ProjectModuleGraph where
  nodes : List ProjectModuleGraphNode
  dependencies : ProjectModuleDependencies

inductive DependencyEdgeOutcome where
  | inserted
  | alreadyPresent

/-- Internal failures of edge insertion and completion. -/
inductive GraphFailure where
  | invalidModuleIdEdge (provider consumer moduleCount : Nat)
  | selfEdge (moduleId : Nat)
  | mutationAfterCompletion

/-- The diagnostics of `cycle_failure`, over paths in tables of their own. -/
inductive PreparedFailure (Path : Type) where
  | circularDependency (path : Path)
  | logicalPathCapacity

/-! ## The sweep -/

/-- One provider less for the consumer. -/
def release (state : List Nat × List Nat) (consumer : Nat) : Option (List Nat × List Nat) := do
  let (remainingProviders, nextReady) := state
  let outstanding ← remainingProviders[consumer]?
  if outstanding = 0 then none
  else
    let remainingProviders := remainingProviders.set consumer (outstanding - 1)
    if outstanding - 1 = 0 then pure (remainingProviders, nextReady ++ [consumer])
    else pure (remainingProviders, nextReady)

def releaseConsumers (providerConsumers : List (List Nat)) (state : List Nat × List Nat)
    (provider : Nat) : Option (List Nat × List Nat) := do
  let consumers ← providerConsumers[provider]?
  consumers.foldlM release state

/-- The `while` loop of `compile_waves`. -/
def sweep (providerConsumers : List (List Nat)) : Nat → List (List Nat) → Nat → List Nat →
    List Nat → Option (List (List Nat) × Nat × List Nat)
  | _, waves, processed, [], remainingProviders => some (waves, processed, remainingProviders)
  | 0, _, _, _ :: _, _ => none
  | fuel + 1, waves, processed, provider :: rest, remainingProviders => do
      let ready := provider :: rest
      let (remainingProviders, nextReady) ←
        ready.foldlM (releaseConsumers providerConsumers) (remainingProviders, [])
      sweep providerConsumers fuel (waves ++ [ready]) (processed + ready.length)
        (nextReady.insertionSort (· ≤ ·)) remainingProviders

/-! ## The cycle witness -/

def blocked (remainingProviders : List Nat) (index : Nat) : Bool :=
  (remainingProviders[index]?).any fun remaining => decide (0 < remaining)

/-- The walk through blocked providers until one repeats. -/
def walk (remainingProviders : List Nat) (dependencyProviders : List (List Nat)) :
    Nat → List Bool → Nat → Option Nat
  | 0, _, _ => none
  | fuel + 1, visited, current => do
      let seen ← visited[current]?
      if seen then some current
      else
        let providers ← dependencyProviders[current]?
        let next ← providers.find? (blocked remainingProviders)
        walk remainingProviders dependencyProviders fuel (visited.set current true) next

def moduleOnDependencyCycle (remainingProviders : List Nat)
    (dependencyProviders : List (List Nat)) : Option Nat := do
  let current ← remainingProviders.findIdx? fun remaining => decide (0 < remaining)
  walk remainingProviders dependencyProviders (remainingProviders.length + 1)
    (List.replicate remainingProviders.length false) current

namespace ProjectModuleGraph

/-- One node for each logical module path, in the order of the identity table. -/
def fromSourceTreeIndex (modulePaths : List String) : ProjectModuleGraph where
  nodes := modulePaths.zipIdx.map fun row => ⟨row.2, row.1⟩
  dependencies := .underConstruction (List.replicate modulePaths.length [])
    (List.replicate modulePaths.length [])

variable (self : ProjectModuleGraph)

def nodeCount : Nat := self.nodes.length

def isValidModuleId (moduleId : Nat) : Bool := decide (moduleId < self.nodeCount)

def addDependencyEdge (provider consumer : Nat) :
    Option (Except GraphFailure (DependencyEdgeOutcome × ProjectModuleGraph)) :=
  if !self.isValidModuleId provider || !self.isValidModuleId consumer then
    some (.error (.invalidModuleIdEdge provider consumer self.nodeCount))
  else if provider = consumer then some (.error (.selfEdge provider))
  else
    match self.dependencies with
    | .frozen _ _ => some (.error .mutationAfterCompletion)
    | .underConstruction dependencyProviders providerConsumers => do
        let providers ← dependencyProviders[consumer]?
        if provider ∈ providers then pure (.ok (.alreadyPresent, self))
        else
          let consumers ← providerConsumers[provider]?
          pure (.ok (.inserted, { self with
            dependencies := .underConstruction
              (dependencyProviders.set consumer (insertSorted provider providers))
              (providerConsumers.set provider (insertSorted consumer consumers)) }))

/-- Any sequence of calls. A call that fails leaves the graph as it is. -/
def addDependencyEdges : ProjectModuleGraph → List (Nat × Nat) → Option ProjectModuleGraph
  | self, [] => some self
  | self, (provider, consumer) :: rest =>
      match self.addDependencyEdge provider consumer with
      | none => none
      | some (.error _) => self.addDependencyEdges rest
      | some (.ok (_, next)) => next.addDependencyEdges rest

def complete : Except GraphFailure ProjectModuleGraph :=
  match self.dependencies with
  | .frozen _ _ => .error .mutationAfterCompletion
  | .underConstruction dependencyProviders providerConsumers =>
      .ok { self with dependencies := .frozen dependencyProviders providerConsumers }

def cycleFailure {Path : Type} (internPortablePath : String → Option Path)
    (remainingProviders : List Nat) (dependencyProviders : List (List Nat)) :
    Option (PreparedFailure Path) := do
  let cycleIndex ← moduleOnDependencyCycle remainingProviders dependencyProviders
  let node ← self.nodes[cycleIndex]?
  match internPortablePath node.logicalModulePath with
  | none => pure .logicalPathCapacity
  | some path => pure (.circularDependency path)

def compileWaves {Path : Type} (internPortablePath : String → Option Path) :
    Option (Except (PreparedFailure Path) (List (List Nat))) :=
  match self.dependencies with
  | .underConstruction _ _ => none
  | .frozen dependencyProviders providerConsumers => do
      let remainingProviders := dependencyProviders.map List.length
      let ready := (self.nodes.zipIdx.filter fun row => remainingProviders[row.2]? == some 0).map
        fun row => row.1.moduleId
      let (waves, processed, remainingProviders) ←
        sweep providerConsumers (self.nodeCount + 1) [] 0 ready remainingProviders
      if processed < self.nodeCount then
        let failure ← self.cycleFailure internPortablePath remainingProviders dependencyProviders
        pure (.error failure)
      else pure (.ok waves)

end ProjectModuleGraph

end Moth.BuildSystem
