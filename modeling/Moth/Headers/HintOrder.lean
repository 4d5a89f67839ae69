import Moth.Headers.HeaderOrdering

/-!
# Hints in any order

Two modules whose headers differ only in the order of their hints resolve the
same hints, need the same headers in the same order, and so are sorted alike.
-/

namespace Moth.Headers

open Moth.Lib Moth.Symbols Moth.Source

/-- The same header with its hints in another order. -/
structure Header.Reordered (header other : Header) : Prop where
  kind : header.kind = other.kind
  nameSpan : header.nameSpan = other.nameSpan
  source : header.source = other.source
  declarationPath : header.declarationPath = other.declarationPath
  hints : header.localOrderingHints.Perm other.localOrderingHints

theorem Header.Reordered.symm {header other : Header} (h : header.Reordered other) :
    other.Reordered header :=
  ⟨h.kind.symm, h.nameSpan.symm, h.source.symm, h.declarationPath.symm, h.hints.symm⟩

/-- The same module with the hints of its headers in another order. -/
structure BoundModuleHeaders.Reordered (parsed other : BoundModuleHeaders) : Prop where
  headers : List.Forall₂ Header.Reordered parsed.headers other.headers
  exports : parsed.sourcePackagePublicExports = other.sourcePackagePublicExports
  imports : parsed.importedDeclarationsByLocalPath = other.importedDeclarationsByLocalPath
  sources : parsed.sourcePathsBySourceId = other.sourcePathsBySourceId

variable {parsed other : BoundModuleHeaders} {contentSourceTargets : ContentSourceTargets}
  {names : PathNames}

theorem map_declarationPath_eq {headers others : List Header}
    (h : List.Forall₂ Header.Reordered headers others) :
    headers.map Header.declarationPath = others.map Header.declarationPath := by
  induction h with
  | nil => rfl
  | cons hfirst _ ih => rw [List.map_cons, List.map_cons, hfirst.declarationPath, ih]

namespace BoundModuleHeaders.Reordered

theorem symm (h : parsed.Reordered other) : other.Reordered parsed where
  headers := h.headers.flip.imp fun _ _ hab => hab.symm
  exports := h.exports.symm
  imports := h.imports.symm
  sources := h.sources.symm

theorem distinct (h : parsed.Reordered other) (hdistinct : parsed.DistinctPaths) :
    other.DistinctPaths := by
  rw [DistinctPaths, ← map_declarationPath_eq h.headers]
  exact hdistinct

theorem isStart_eq {header other : Header} (h : header.Reordered other) :
    header.isStart = other.isStart := by
  rw [Header.isStart, Header.isStart, h.kind]

theorem topLevelHeaders (h : parsed.Reordered other) :
    List.Forall₂ Header.Reordered parsed.topLevelHeaders other.topLevelHeaders :=
  List.rel_filter (fun _ _ hab => by beta_reduce; rw [isStart_eq hab]) h.headers

theorem startHeaders (h : parsed.Reordered other) :
    List.Forall₂ Header.Reordered parsed.startHeaders other.startHeaders :=
  List.rel_filter (fun _ _ hab => by beta_reduce; rw [isStart_eq hab]) h.headers

variable (contentSourceTargets names)

theorem headerForPath (h : parsed.Reordered other) (hdistinct : parsed.DistinctPaths)
    {path : PathId} {header : Header}
    (hheader : (parsed.graph contentSourceTargets).headerForPath path = some header) :
    ∃ header', (other.graph contentSourceTargets).headerForPath path = some header' ∧
      header.Reordered header' := by
  obtain ⟨hmem, hpath⟩ := (headerForPath_iff hdistinct).1 hheader
  obtain ⟨header', hmem', hre⟩ := forall₂_exists_right h.topLevelHeaders hmem
  have hpath' : header'.declarationPath = path := hre.declarationPath.symm.trans hpath
  exact ⟨header', (headerForPath_iff (h.distinct hdistinct)).2 ⟨hmem', hpath'⟩, hre⟩

theorem known_eq (h : parsed.Reordered other) (hdistinct : parsed.DistinctPaths) (path : PathId) :
    ((parsed.graph contentSourceTargets).headerForPath path).isSome =
      ((other.graph contentSourceTargets).headerForPath path).isSome := by
  refine Bool.eq_iff_iff.2 ⟨fun hknown => ?_, fun hknown => ?_⟩
  · obtain ⟨header, hheader⟩ := Option.isSome_iff_exists.1 hknown
    obtain ⟨header', hheader', -⟩ := h.headerForPath contentSourceTargets hdistinct hheader
    rw [hheader']
    rfl
  · obtain ⟨header, hheader⟩ := Option.isSome_iff_exists.1 hknown
    obtain ⟨header', hheader', -⟩ :=
      h.symm.headerForPath contentSourceTargets (h.distinct hdistinct) hheader
    rw [hheader']
    rfl

theorem sourceOrder_eq (h : parsed.Reordered other) :
    (parsed.graph contentSourceTargets).sourceOrderByPath =
      (other.graph contentSourceTargets).sourceOrderByPath := by
  have hrows (headers : List Header) : (headers.zipIdx.map fun row =>
      (row.1.declarationPath, row.2)) = (headers.map Header.declarationPath).zipIdx := by
    rw [List.zipIdx_map]
    rfl
  show (parsed.topLevelHeaders.zipIdx.map _).reverse = (other.topLevelHeaders.zipIdx.map _).reverse
  rw [hrows, hrows, map_declarationPath_eq h.topLevelHeaders]

theorem resolveRequestedPath_eq (h : parsed.Reordered other) (hdistinct : parsed.DistinctPaths)
    (path : PathId) : (parsed.graph contentSourceTargets).resolveRequestedPath names path =
      (other.graph contentSourceTargets).resolveRequestedPath names path := by
  have hexport : (parsed.graph contentSourceTargets).isSourcePackagePublicExportPath names path =
      (other.graph contentSourceTargets).isSourcePackagePublicExportPath names path := by
    show DependencyGraph.isSourcePackagePublicExportPath
      (.fromHeaders _ parsed.sourcePackagePublicExports _ _ _) names path = _
    rw [h.exports]
    rfl
  have hprovider : (parsed.graph contentSourceTargets).providerInterfacePaths =
      (other.graph contentSourceTargets).providerInterfacePaths := h.imports
  rw [DependencyGraph.resolveRequestedPath, DependencyGraph.resolveRequestedPath, hexport,
    hprovider, h.known_eq contentSourceTargets hdistinct]

theorem resolveDependencyEdge_eq (h : parsed.Reordered other) (hdistinct : parsed.DistinctPaths)
    {header header' : Header} (hre : header.Reordered header')
    (hint : LocalDeclarationOrderingHint) :
    (parsed.graph contentSourceTargets).resolveDependencyEdge names header hint =
      (other.graph contentSourceTargets).resolveDependencyEdge names header' hint := by
  have hsources : (parsed.graph contentSourceTargets).sourcePathsBySourceId =
      (other.graph contentSourceTargets).sourcePathsBySourceId := h.sources
  have hcontent : (parsed.graph contentSourceTargets).contentSourceTargets =
      (other.graph contentSourceTargets).contentSourceTargets := rfl
  have hplace (path : PathId) :
      (parsed.graph contentSourceTargets).sourceOrderForRequestedPath names path =
        (other.graph contentSourceTargets).sourceOrderForRequestedPath names path := by
    rw [DependencyGraph.sourceOrderForRequestedPath, DependencyGraph.sourceOrderForRequestedPath,
      h.resolveRequestedPath_eq contentSourceTargets names hdistinct,
      h.sourceOrder_eq contentSourceTargets]
  simp only [DependencyGraph.resolveDependencyEdge, hsources, hcontent, hplace, hre.nameSpan,
    hre.source, h.resolveRequestedPath_eq contentSourceTargets names hdistinct]

theorem resolvesTo_iff (h : parsed.Reordered other) (hdistinct : parsed.DistinctPaths)
    {header header' : Header} (hre : header.Reordered header')
    (hint : LocalDeclarationOrderingHint) (path : PathId) :
    (parsed.graph contentSourceTargets).ResolvesTo names header hint path ↔
      (other.graph contentSourceTargets).ResolvesTo names header' hint path := by
  rw [DependencyGraph.ResolvesTo, DependencyGraph.ResolvesTo,
    h.resolveDependencyEdge_eq contentSourceTargets names hdistinct hre]

theorem dependsOn_of (h : parsed.Reordered other) (hdistinct : parsed.DistinctPaths)
    {path target : PathId} (hdepends : parsed.DependsOn contentSourceTargets names path target) :
    other.DependsOn contentSourceTargets names path target := by
  obtain ⟨header, hmem, rfl, hint, hhint, hresolves⟩ := hdepends
  obtain ⟨header', hmem', hre⟩ := forall₂_exists_right h.topLevelHeaders hmem
  exact ⟨header', hmem', hre.declarationPath.symm, hint, hre.hints.mem_iff.1 hhint,
    (h.resolvesTo_iff contentSourceTargets names hdistinct hre hint target).1 hresolves⟩

theorem dependsOn_iff (h : parsed.Reordered other) (hdistinct : parsed.DistinctPaths)
    {path target : PathId} : parsed.DependsOn contentSourceTargets names path target ↔
      other.DependsOn contentSourceTargets names path target :=
  ⟨h.dependsOn_of contentSourceTargets names hdistinct,
    h.symm.dependsOn_of contentSourceTargets names (h.distinct hdistinct)⟩

theorem needs_eq (h : parsed.Reordered other) (hdistinct : parsed.DistinctPaths) :
    (parsed.graph contentSourceTargets).needs names =
      (other.graph contentSourceTargets).needs names := by
  have hdistinct' := h.distinct hdistinct
  funext path
  refine (graph_wellFormed _ hdistinct).needs_congr (graph_wellFormed _ hdistinct')
    (fun target => ?_) fun target => ?_
  · rw [DependencyGraph.place, DependencyGraph.place, h.sourceOrder_eq]
  · rw [mem_needs_iff hdistinct, mem_needs_iff hdistinct']
    exact h.dependsOn_iff contentSourceTargets names hdistinct

theorem flawed_of (h : parsed.Reordered other) (hdistinct : parsed.DistinctPaths)
    (hflawed : Flawed (parsed.graph contentSourceTargets) names) :
    Flawed (other.graph contentSourceTargets) names := by
  rcases hflawed with ⟨path, header, hheader, hint, hhint, edge, hedge, hkind⟩ | ⟨path, hcycle⟩
  · obtain ⟨header', hheader', hre⟩ := h.headerForPath contentSourceTargets hdistinct hheader
    rw [h.resolveDependencyEdge_eq contentSourceTargets names hdistinct hre] at hedge
    exact .inl ⟨path, header', hheader', hint, hre.hints.mem_iff.1 hhint, edge, hedge, hkind⟩
  · rw [NeedsThrough, h.needs_eq contentSourceTargets names hdistinct] at hcycle
    exact .inr ⟨path, hcycle⟩

end BoundModuleHeaders.Reordered

/-- No hint of a top-level header has a missing target. -/
def BoundModuleHeaders.NoneMissing (parsed : BoundModuleHeaders)
    (contentSourceTargets : ContentSourceTargets) (names : PathNames) : Prop :=
  ∀ header ∈ parsed.topLevelHeaders, ∀ hint ∈ header.localOrderingHints,
    ¬(parsed.graph contentSourceTargets).Misses names header hint

/-- No top-level header leads back to itself. -/
def BoundModuleHeaders.Acyclic (parsed : BoundModuleHeaders)
    (contentSourceTargets : ContentSourceTargets) (names : PathNames) : Prop :=
  ∀ path, ¬Relation.TransGen (parsed.DependsOn contentSourceTargets names) path path

theorem not_flawed_iff (h : parsed.DistinctPaths) :
    ¬Flawed (parsed.graph contentSourceTargets) names ↔
      parsed.NoneMissing contentSourceTargets names ∧ parsed.Acyclic contentSourceTargets names := by
  have hthrough : NeedsThrough (parsed.graph contentSourceTargets) names =
      Relation.TransGen (parsed.DependsOn contentSourceTargets names) := by
    rw [NeedsThrough]
    exact congrArg _ (funext₂ fun path target => propext (mem_needs_iff h))
  rw [Flawed, not_or, hthrough, not_exists (p := fun path => Relation.TransGen _ path path)]
  refine and_congr_left fun _ => ⟨fun hnone header hmem hint hhint hmisses => ?_, ?_⟩
  · exact hnone ⟨_, header, (headerForPath_iff h).2 ⟨hmem, rfl⟩, hint, hhint, hmisses⟩
  · rintro hnone ⟨path, header, hheader, hint, hhint, hmisses⟩
    exact hnone header ((headerForPath_iff h).1 hheader).1 hint hhint hmisses

/-- Ordering the headers of a module ends, in a diagnostic exactly where a target is missing or a
header leads back to itself, and otherwise in a topological order that no order of hints changes. -/
theorem resolveModuleDependencies_orders (parsed : BoundModuleHeaders)
    (contentSourceTargets : ContentSourceTargets) (names : PathNames)
    (h : (parsed.headers.map Header.declarationPath).Nodup) :
    ∃ result, resolveModuleDependencies parsed contentSourceTargets names = some result ∧
      ((∃ headers, result = .ok headers) ↔ parsed.NoneMissing contentSourceTargets names ∧
        parsed.Acyclic contentSourceTargets names) ∧
      ∀ headers, result = .ok headers →
        headers.Perm parsed.headers ∧
        HintsFirst (parsed.graph contentSourceTargets) names headers ∧
        (∃ sorted, headers = sorted ++ parsed.startHeaders ∧
          ∀ header ∈ sorted, header.kind ≠ .startFunction) ∧
        ∀ other, parsed.Reordered other → ∃ others,
          resolveModuleDependencies other contentSourceTargets names = some (.ok others) ∧
          others.map Header.declarationPath = headers.map Header.declarationPath := by
  have hdistinct : parsed.DistinctPaths := h
  have hgraph := graph_wellFormed contentSourceTargets hdistinct
  rw [← not_flawed_iff hdistinct]
  rcases resolveModuleDependencies_cases contentSourceTargets names hdistinct with
    ⟨sorted, tracker, hresult, hsearch, hsorted, hall⟩ | ⟨errors, hresult, hflawed⟩
  · have hsound := hsearch.not_flawed hall
    have hperm := hsearch.perm hdistinct hall
    refine ⟨_, hresult, iff_of_true ⟨_, rfl⟩ hsound, fun headers heq => ?_⟩
    cases heq
    refine ⟨?_, hsearch.hintsFirst hgraph hall _, ⟨sorted, rfl, fun header hmem => ?_⟩, ?_⟩
    · refine (hperm.append_right _).trans (List.perm_append_comm.trans ?_)
      exact List.filter_append_perm Header.isStart parsed.headers
    · have := (List.mem_filter.1 (hperm.mem_iff.1 hmem)).2
      simpa [Header.isStart] using this
    · intro other hother
      rcases resolveModuleDependencies_cases contentSourceTargets names
          (hother.distinct hdistinct) with
        ⟨others, _, hresult', -, hsorted', -⟩ | ⟨_, -, hflawed⟩
      · refine ⟨_, hresult', ?_⟩
        rw [List.map_append, List.map_append, hsorted, hsorted',
          hother.needs_eq contentSourceTargets names hdistinct,
          map_declarationPath_eq hother.topLevelHeaders, hother.topLevelHeaders.length_eq,
          map_declarationPath_eq hother.startHeaders]
      · exact absurd (hother.symm.flawed_of contentSourceTargets names
          (hother.distinct hdistinct) hflawed) hsound
  · refine ⟨_, hresult, iff_of_false ?_ (not_not_intro hflawed), fun _ heq => (by cases heq)⟩
    rintro ⟨_, heq⟩
    cases heq

def samplePath (index : Nat) : PathId := ⟨index⟩

def sampleHeader (kind : HeaderKind) (path : PathId) (hints : List PathId) : Header :=
  ⟨kind, hints.map fun hint => ⟨hint, .sourceOwned, none, none⟩, none, ⟨0⟩, path⟩

/-- A start body, a constant and the alias the constant needs. -/
def sampleModule : BoundModuleHeaders where
  headers := [sampleHeader .startFunction (samplePath 1) [],
    sampleHeader .constant (samplePath 2) [samplePath 3],
    sampleHeader .typeAlias (samplePath 3) []]
  sourcePackagePublicExports := []
  importedDeclarationsByLocalPath := []
  sourcePathsBySourceId _ := some (samplePath 1)
  prepared _ _ := rfl

def sampleNames : PathNames :=
  ⟨fun _ => [], fun _ => none, fun _ => some (samplePath 1), fun _ => "", fun _ => ""⟩

theorem resolveModuleDependencies_orders_sample :
    (sampleModule.headers.map Header.declarationPath).Nodup ∧
      ∃ result, resolveModuleDependencies sampleModule ⟨[]⟩ sampleNames = some result ∧
        ((∃ headers, result = .ok headers) ↔
          sampleModule.NoneMissing ⟨[]⟩ sampleNames ∧ sampleModule.Acyclic ⟨[]⟩ sampleNames) := by
  have hdistinct : (sampleModule.headers.map Header.declarationPath).Nodup := by decide
  obtain ⟨result, hresult, hiff, -⟩ :=
    resolveModuleDependencies_orders sampleModule ⟨[]⟩ sampleNames hdistinct
  exact ⟨hdistinct, result, hresult, hiff⟩

end Moth.Headers
