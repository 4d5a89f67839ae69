import Mathlib.Data.List.Forall2
import Moth.Headers.HeaderSearch

/-!
# The order of the headers of a module

Under distinct declaration paths the search ends without a diagnostic exactly
when no hint of a top-level header misses its target and no top-level header
needs itself. The headers then stand after all headers their hints resolve to,
the `start` headers last, in an order that does not depend on the order in
which hints are iterated.
-/

namespace Moth.Headers

open Moth.Lib Moth.Symbols Moth.Source

variable {graph : DependencyGraph} {names : PathNames}

/-- The paths of a module in turn: what is sorted, and what a diagnostic tells. -/
theorem visitOrderedPaths_ends (hgraph : graph.WellFormed) {fuel : Nat}
    (hfuel : graph.orderedPaths.toFinset.card < fuel) {paths : List PathId}
    (hpaths : ∀ path ∈ paths, (graph.headerForPath path).isSome) {tracker : DependencyTracker}
    {sorted : List Header} (h : Searching graph names tracker sorted)
    (hmarks : tracker.tempMark = ∅) (diagnosticBag : List DiagnosticDraft) :
    ∃ errors sorted' tracker',
      visitOrderedPaths names graph fuel paths tracker sorted diagnosticBag =
        some (diagnosticBag ++ errors, sorted') ∧ Searching graph names tracker' sorted' ∧
      (errors = [] → sorted'.map Header.declarationPath =
          paths.foldl (postorder (graph.needs names) fuel) (sorted.map Header.declarationPath) ∧
        ∀ path ∈ paths, path ∈ sorted'.map Header.declarationPath) ∧
      (errors ≠ [] → Flawed graph names) := by
  induction paths generalizing tracker sorted diagnosticBag with
  | nil =>
      refine ⟨[], sorted, tracker, by rw [visitOrderedPaths, List.append_nil], h,
        fun _ => ⟨rfl, ?_⟩, fun hne => absurd rfl hne⟩
      exact fun _ hpath => absurd hpath List.not_mem_nil
  | cons path rest ih =>
      have hrest : ∀ path ∈ rest, (graph.headerForPath path).isSome := fun path hpath =>
        hpaths path (List.mem_cons_of_mem _ hpath)
      have hknown := hpaths path List.mem_cons_self
      rw [visitOrderedPaths]
      by_cases hvisited : path ∈ tracker.visited
      · rw [if_pos hvisited]
        have hin := (h.visited_iff path hknown).1 hvisited
        obtain ⟨errors, sorted', tracker', heq, hsearch, hlisted, hflawed⟩ :=
          ih hrest h hmarks diagnosticBag
        refine ⟨errors, sorted', tracker', heq, hsearch, fun hnone => ?_, hflawed⟩
        obtain ⟨hsorted, hall⟩ := hlisted hnone
        refine ⟨by rw [hsorted, List.foldl_cons, postorder_of_mem hin], fun other hother => ?_⟩
        rcases List.mem_cons.1 hother with rfl | hother
        · rw [hsorted]
          exact foldl_subset (subset_postorder _ fuel) _ _ hin
        · exact hall other hother
      rw [if_neg hvisited]
      have hroom : unmarked graph tracker < fuel := by
        rw [unmarked, hmarks, Finset.sdiff_empty]
        exact hfuel
      obtain ⟨result, tracker₁, sorted₁, hvisit, hout⟩ := visitNode_ends hgraph fuel path
        ((graph.headerForPath path).bind Header.nameSpan) tracker sorted hknown h hroom
      have hmarks₁ : tracker₁.tempMark = ∅ := hout.marks.trans hmarks
      simp only [hvisit, Option.bind_eq_bind, Option.bind_some]
      cases result with
      | error error =>
          obtain ⟨errors, sorted', tracker', heq, hsearch, -, -⟩ :=
            ih hrest hout.searching hmarks₁ (diagnosticBag ++ [error])
          refine ⟨error :: errors, sorted', tracker', ?_, hsearch, fun hnone => (by cases hnone),
            fun _ => ?_⟩
          · show visitOrderedPaths names graph fuel rest tracker₁ sorted₁ _ = _
            rw [heq, List.append_assoc, List.singleton_append]
          · refine (hout.blamed error rfl fun _ _ marked hmarked => ?_).resolve_left not_false
            rw [hmarks] at hmarked
            exact absurd hmarked (Finset.notMem_empty marked)
      | ok _ =>
          obtain ⟨errors, sorted', tracker', heq, hsearch, hlisted, hflawed⟩ :=
            ih hrest hout.searching hmarks₁ diagnosticBag
          refine ⟨errors, sorted', tracker', heq, hsearch, fun hnone => ?_, hflawed⟩
          obtain ⟨hsorted, hall⟩ := hlisted hnone
          obtain ⟨hfirst, hin, -⟩ := hout.listed rfl
          refine ⟨by rw [hsorted, hfirst]; rfl, fun other hother => ?_⟩
          rcases List.mem_cons.1 hother with rfl | hother
          · rw [hsorted]
            exact foldl_subset (subset_postorder _ fuel) _ _
              (hin other (List.mem_singleton_self other))
          · exact hall other hother

theorem Searching.empty (graph : DependencyGraph) (names : PathNames) :
    Searching graph names .new [] where
  kept _ h := absurd h List.not_mem_nil
  ordered := .nil
  visited_iff path _ := ⟨fun h => absurd h (Finset.notMem_empty path),
    fun h => absurd h List.not_mem_nil⟩
  clean _ h := absurd h List.not_mem_nil
  separate path h := absurd h (Finset.notMem_empty path)

theorem Searching.not_flawed {tracker : DependencyTracker} {sorted : List Header}
    (h : Searching graph names tracker sorted)
    (hall : ∀ path, (graph.headerForPath path).isSome → path ∈ sorted.map Header.declarationPath) :
    ¬Flawed graph names := by
  rintro (⟨path, header, hheader, hint, hhint, hmisses⟩ | ⟨path, hcycle⟩)
  · obtain ⟨found, hfound, rfl⟩ := List.mem_map.1 (hall path (by rw [hheader]; rfl))
    have hsame : found = header := Option.some.inj ((h.kept found hfound).symm.trans hheader)
    subst hsame
    exact h.clean found hfound hint hhint hmisses
  · refine h.ordered.acyclic path (hall path ?_) hcycle
    obtain ⟨target, hstep, -⟩ := Relation.TransGen.head'_iff.1 hcycle
    cases hheader : graph.headerForPath path with
    | some _ => rfl
    | none =>
        rw [DependencyGraph.needs, hheader] at hstep
        exact absurd hstep List.not_mem_nil

/-! ## The graph of a module -/

section Module

variable (parsed : BoundModuleHeaders) (contentSourceTargets : ContentSourceTargets)

/-- A top-level header has a hint that resolves to the header of another path. -/
def BoundModuleHeaders.DependsOn (names : PathNames) (path target : PathId) : Prop :=
  ∃ header ∈ parsed.topLevelHeaders, header.declarationPath = path ∧
    ∃ hint ∈ header.localOrderingHints,
      (parsed.graph contentSourceTargets).ResolvesTo names header hint target

/-- The headers declare pairwise distinct paths. -/
def BoundModuleHeaders.DistinctPaths : Prop :=
  (parsed.headers.map Header.declarationPath).Nodup

variable {parsed contentSourceTargets}

theorem BoundModuleHeaders.DistinctPaths.topLevel (h : parsed.DistinctPaths) :
    (parsed.topLevelHeaders.map Header.declarationPath).Nodup :=
  h.sublist (List.filter_sublist.map _)

theorem headerForPath_iff (h : parsed.DistinctPaths) {path : PathId} {header : Header} :
    (parsed.graph contentSourceTargets).headerForPath path = some header ↔
      header ∈ parsed.topLevelHeaders ∧ header.declarationPath = path := by
  have hkeys : (((parsed.topLevelHeaders.map fun header =>
      (header.declarationPath, header)).reverse).map Prod.fst).Nodup := by
    rw [List.map_reverse, List.nodup_reverse, List.map_map]
    exact h.topLevel
  show List.lookup path _ = some header ↔ _
  rw [BoundModuleHeaders.graph, DependencyGraph.fromHeaders, lookup_eq_some_iff_mem hkeys,
    List.mem_reverse, List.mem_map]
  constructor
  · rintro ⟨found, hfound, heq⟩
    cases heq
    exact ⟨hfound, rfl⟩
  · rintro ⟨hfound, rfl⟩
    exact ⟨header, hfound, rfl⟩

theorem sourceOrder_iff (h : parsed.DistinctPaths) {path : PathId} {place : Nat} :
    (parsed.graph contentSourceTargets).sourceOrderByPath.lookup path = some place ↔
      ∃ header, parsed.topLevelHeaders[place]? = some header ∧ header.declarationPath = path := by
  have hkeys : (((parsed.topLevelHeaders.zipIdx.map fun row =>
      (row.1.declarationPath, row.2)).reverse).map Prod.fst).Nodup := by
    rw [List.map_reverse, List.nodup_reverse, List.map_map]
    have hfst : (Prod.fst ∘ fun row : Header × Nat => (row.1.declarationPath, row.2)) =
        Header.declarationPath ∘ Prod.fst := rfl
    rw [hfst, ← List.map_map, List.zipIdx_map_fst]
    exact h.topLevel
  rw [BoundModuleHeaders.graph, DependencyGraph.fromHeaders, lookup_eq_some_iff_mem hkeys,
    List.mem_reverse, List.mem_map]
  constructor
  · rintro ⟨⟨found, i⟩, hfound, heq⟩
    cases heq
    exact ⟨found, List.mem_zipIdx_iff_getElem?.1 hfound, rfl⟩
  · rintro ⟨found, hfound, rfl⟩
    exact ⟨(found, place), List.mem_zipIdx_iff_getElem?.2 hfound, rfl⟩

theorem graph_wellFormed (contentSourceTargets : ContentSourceTargets) (h : parsed.DistinctPaths) :
    (parsed.graph contentSourceTargets).WellFormed where
  prepared path header hheader :=
    parsed.prepared header (List.mem_of_mem_filter ((headerForPath_iff h).1 hheader).1)
  owned path header hheader := ((headerForPath_iff h).1 hheader).2
  placed path header hheader := by
    obtain ⟨hmem, hpath⟩ := (headerForPath_iff h).1 hheader
    obtain ⟨place, hplace⟩ := List.mem_iff_getElem?.1 hmem
    exact ⟨place, (sourceOrder_iff h).2 ⟨header, hplace, hpath⟩⟩
  apart path other place hpath hother := by
    obtain ⟨header, hheader, rfl⟩ := (sourceOrder_iff h).1 hpath
    obtain ⟨header', hheader', rfl⟩ := (sourceOrder_iff h).1 hother
    rw [Option.some.inj (hheader.symm.trans hheader')]
  listed path := by
    show path ∈ parsed.topLevelHeaders.map Header.declarationPath ↔ _
    rw [List.mem_map, Option.isSome_iff_exists]
    exact exists_congr fun header => (headerForPath_iff h).symm

theorem mem_needs_iff (h : parsed.DistinctPaths) {path target : PathId} :
    target ∈ (parsed.graph contentSourceTargets).needs names path ↔
      parsed.DependsOn contentSourceTargets names path target := by
  cases hheader : (parsed.graph contentSourceTargets).headerForPath path with
  | none =>
      rw [DependencyGraph.needs, hheader]
      refine iff_of_false List.not_mem_nil ?_
      rintro ⟨header, hmem, hpath, -⟩
      rw [(headerForPath_iff h).2 ⟨hmem, hpath⟩] at hheader
      cases hheader
  | some header =>
      obtain ⟨hmem, hpath⟩ := (headerForPath_iff h).1 hheader
      rw [(graph_wellFormed _ h).mem_needs hheader]
      refine ⟨fun hhint => ⟨header, hmem, hpath, hhint⟩, ?_⟩
      rintro ⟨header', hmem', hpath', hhint⟩
      have hheader' : (parsed.graph contentSourceTargets).headerForPath path = some header' :=
        (headerForPath_iff h).2 ⟨hmem', hpath'⟩
      rw [Option.some.inj (hheader.symm.trans hheader')]
      exact hhint

/-- The search succeeds with all headers sorted, or fails on a flaw. -/
theorem resolveModuleDependencies_cases (contentSourceTargets : ContentSourceTargets)
    (names : PathNames) (h : parsed.DistinctPaths) :
    (∃ sorted tracker, resolveModuleDependencies parsed contentSourceTargets names =
        some (.ok (sorted ++ parsed.startHeaders)) ∧
      Searching (parsed.graph contentSourceTargets) names tracker sorted ∧
      sorted.map Header.declarationPath = (parsed.topLevelHeaders.map Header.declarationPath).foldl
        (postorder ((parsed.graph contentSourceTargets).needs names)
          (parsed.topLevelHeaders.length + 1)) [] ∧
      ∀ path, ((parsed.graph contentSourceTargets).headerForPath path).isSome →
        path ∈ sorted.map Header.declarationPath) ∨
    ∃ errors, resolveModuleDependencies parsed contentSourceTargets names = some (.error errors) ∧
      Flawed (parsed.graph contentSourceTargets) names := by
  have hgraph := graph_wellFormed contentSourceTargets h
  have hfuel : (parsed.graph contentSourceTargets).orderedPaths.toFinset.card <
      parsed.topLevelHeaders.length + 1 := by
    refine Nat.lt_succ_of_le ((List.toFinset_card_le _).trans_eq ?_)
    exact List.length_map _
  obtain ⟨errors, sorted, tracker, heq, hsearch, hlisted, hflawed⟩ :=
    visitOrderedPaths_ends hgraph hfuel (fun path hpath => (hgraph.listed path).1 hpath)
      (.empty _ names) rfl []
  rw [resolveModuleDependencies]
  simp only [heq, Option.bind_eq_bind, Option.bind_some, List.nil_append]
  cases errors with
  | nil =>
      obtain ⟨hsorted, hall⟩ := hlisted rfl
      exact .inl ⟨sorted, tracker, rfl, hsearch, hsorted,
        fun path hknown => hall path ((hgraph.listed path).2 hknown)⟩
  | cons error errors =>
      exact .inr ⟨error :: errors, rfl, hflawed (List.cons_ne_nil error errors)⟩

/-- Every header is after the headers its hints resolve to. -/
def HintsFirst (graph : DependencyGraph) (names : PathNames) (headers : List Header) : Prop :=
  ∀ before header after, headers = before ++ header :: after →
    ∀ hint ∈ header.localOrderingHints, ∀ path, graph.ResolvesTo names header hint path →
      path ∈ before.map Header.declarationPath

theorem Searching.hintsFirst {tracker : DependencyTracker} {sorted : List Header}
    (hgraph : graph.WellFormed) (h : Searching graph names tracker sorted)
    (hall : ∀ path, (graph.headerForPath path).isSome → path ∈ sorted.map Header.declarationPath)
    (startHeaders : List Header) : HintsFirst graph names (sorted ++ startHeaders) := by
  intro before header after hsplit hint hhint path hresolves
  have hin := hall path hresolves.known
  rcases List.append_eq_append_iff.1 hsplit with ⟨middle, rfl, -⟩ | ⟨middle, hsorted, hmiddle⟩
  · rw [List.map_append]
    exact List.mem_append_left _ hin
  · cases middle with
    | nil =>
        rw [hsorted, List.append_nil] at hin
        exact hin
    | cons first rest =>
        obtain ⟨rfl, -⟩ := List.cons_eq_cons.1 hmiddle
        have hheader := h.kept header (hsorted ▸ List.mem_append_right before List.mem_cons_self)
        have hpaths : sorted.map Header.declarationPath = before.map Header.declarationPath ++
            header.declarationPath :: rest.map Header.declarationPath := by
          rw [hsorted, List.map_append, List.map_cons]
        have hneeded := (hgraph.mem_needs hheader).2 ⟨hint, hhint, hresolves⟩
        exact h.ordered.met_before hpaths path hneeded

theorem Searching.perm {tracker : DependencyTracker} {sorted : List Header}
    (h : parsed.DistinctPaths)
    (hsearch : Searching (parsed.graph contentSourceTargets) names tracker sorted)
    (hall : ∀ path, ((parsed.graph contentSourceTargets).headerForPath path).isSome →
      path ∈ sorted.map Header.declarationPath) : sorted.Perm parsed.topLevelHeaders := by
  refine (List.perm_ext_iff_of_nodup hsearch.ordered.nodup.of_map h.topLevel.of_map).2 ?_
  intro header
  constructor
  · exact fun hmem => ((headerForPath_iff h).1 (hsearch.kept header hmem)).1
  · intro hmem
    have hheader : (parsed.graph contentSourceTargets).headerForPath header.declarationPath =
        some header := (headerForPath_iff h).2 ⟨hmem, rfl⟩
    obtain ⟨found, hfound, hpath⟩ := List.mem_map.1 (hall _ (by rw [hheader]; rfl))
    have hkept := hsearch.kept found hfound
    rw [hpath, hheader] at hkept
    exact Option.some.inj hkept ▸ hfound

end Module

end Moth.Headers
