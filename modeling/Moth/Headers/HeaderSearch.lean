import Mathlib.Data.Finset.Card
import Moth.Headers.DependencyHints
import Moth.Lib.DepthFirst

/-!
# The search for an order

What holds at every moment of the search: the sorted headers stand after what
they need, they are the visited ones, none of them has a missing target, and
no marked path is among them. A visit that fails has met a missing target, or
a path that needs itself: every marked path needs the one that is visited.
The depth is bounded by the paths that are not marked.
-/

namespace Moth.Headers

open Moth.Lib Moth.Symbols Moth.Source

variable {graph : DependencyGraph} {names : PathNames}

/-- What the search maintains. -/
structure Searching (graph : DependencyGraph) (names : PathNames) (tracker : DependencyTracker)
    (sorted : List Header) : Prop where
  kept : ∀ header ∈ sorted, graph.headerForPath header.declarationPath = some header
  ordered : NeedsFirst (graph.needs names) (sorted.map Header.declarationPath)
  visited_iff : ∀ path, (graph.headerForPath path).isSome →
    (path ∈ tracker.visited ↔ path ∈ sorted.map Header.declarationPath)
  clean : ∀ header ∈ sorted, ∀ hint ∈ header.localOrderingHints, ¬graph.Misses names header hint
  separate : ∀ path ∈ tracker.tempMark, path ∉ sorted.map Header.declarationPath

/-- One path needs the other, directly or through others. -/
def NeedsThrough (graph : DependencyGraph) (names : PathNames) : PathId → PathId → Prop :=
  Relation.TransGen fun path target => target ∈ graph.needs names path

/-- A header has a missing target, or a path needs itself. -/
def Flawed (graph : DependencyGraph) (names : PathNames) : Prop :=
  (∃ path header, graph.headerForPath path = some header ∧
    ∃ hint ∈ header.localOrderingHints, graph.Misses names header hint) ∨
  ∃ path, NeedsThrough graph names path path

variable {tracker : DependencyTracker} {sorted : List Header} {path : PathId}

theorem Searching.markOutside (h : Searching graph names tracker sorted)
    (hunknown : graph.headerForPath path = none) :
    Searching graph names (tracker.markVisited path) sorted where
  kept := h.kept
  ordered := h.ordered
  visited_iff other hother := by
    rw [DependencyTracker.markVisited, Finset.mem_insert, h.visited_iff other hother]
    refine or_iff_right fun heq => ?_
    rw [heq, hunknown] at hother
    cases hother
  clean := h.clean
  separate := h.separate

theorem Searching.enter (h : Searching graph names tracker sorted)
    (hfresh : path ∉ sorted.map Header.declarationPath) :
    Searching graph names (tracker.enter path) sorted where
  kept := h.kept
  ordered := h.ordered
  visited_iff := h.visited_iff
  clean := h.clean
  separate other hother := by
    rcases Finset.mem_insert.1 hother with rfl | hother
    · exact hfresh
    · exact h.separate other hother

theorem Searching.abandon (h : Searching graph names tracker sorted) :
    Searching graph names (tracker.abandon path) sorted where
  kept := h.kept
  ordered := h.ordered
  visited_iff := h.visited_iff
  clean := h.clean
  separate other hother := h.separate other (Finset.mem_of_mem_erase hother)

theorem Searching.finish {header : Header} (h : Searching graph names tracker sorted)
    (hheader : graph.headerForPath path = some header) (howned : header.declarationPath = path)
    (hmarked : path ∈ tracker.tempMark)
    (hmet : ∀ target ∈ graph.needs names path, target ∈ sorted.map Header.declarationPath)
    (hclean : ∀ hint ∈ header.localOrderingHints, ¬graph.Misses names header hint) :
    Searching graph names (tracker.finish path) (sorted ++ [header]) where
  kept other hother := by
    rcases List.mem_append.1 hother with hother | hother
    · exact h.kept other hother
    · rw [List.mem_singleton.1 hother, howned, hheader]
  ordered := by
    rw [List.map_append, List.map_singleton, howned]
    exact .snoc h.ordered (h.separate path hmarked) hmet
  visited_iff other hother := by
    rw [List.map_append, List.map_singleton, howned, List.mem_append, List.mem_singleton,
      DependencyTracker.finish, DependencyTracker.markVisited, Finset.mem_insert, or_comm]
    exact or_congr_left (h.visited_iff other hother)
  clean other hother := by
    rcases List.mem_append.1 hother with hother | hother
    · exact h.clean other hother
    · rw [List.mem_singleton.1 hother]
      exact hclean
  separate other hother := by
    rw [List.map_append, List.map_singleton, howned, List.mem_append, List.mem_singleton, not_or]
    obtain ⟨hne, hother⟩ := Finset.mem_erase.1 hother
    exact ⟨h.separate other hother, hne⟩

/-! ## What a visit leaves -/

/-- The outcome of visiting some header paths; `missing` says that a missing target was met. -/
structure Outcome (graph : DependencyGraph) (names : PathNames) (fuel : Nat)
    (targets : List PathId) (missing : Prop) (tracker : DependencyTracker) (sorted : List Header)
    (result : VisitResult) (tracker' : DependencyTracker) (sorted' : List Header) : Prop where
  marks : tracker'.tempMark = tracker.tempMark
  searching : Searching graph names tracker' sorted'
  listed : result = .ok () →
    sorted'.map Header.declarationPath =
      targets.foldl (postorder (graph.needs names) fuel) (sorted.map Header.declarationPath) ∧
    (∀ target ∈ targets, target ∈ sorted'.map Header.declarationPath) ∧ ¬missing
  blamed : ∀ error, result = .error error →
    (∀ target ∈ targets, ∀ marked ∈ tracker.tempMark, NeedsThrough graph names marked target) →
    missing ∨ Flawed graph names

/-- A visit that ends, with the outcome it has. -/
def Ends (graph : DependencyGraph) (names : PathNames) (fuel : Nat) (targets : List PathId)
    (missing : Prop) (tracker : DependencyTracker) (sorted : List Header) (visit : Visit) : Prop :=
  ∃ result tracker' sorted', visit = some (result, tracker', sorted') ∧
    Outcome graph names fuel targets missing tracker sorted result tracker' sorted'

/-- The header paths not marked, which bound the depth of the search. -/
def unmarked (graph : DependencyGraph) (tracker : DependencyTracker) : Nat :=
  (graph.orderedPaths.toFinset \ tracker.tempMark).card

theorem unmarked_enter (hgraph : graph.WellFormed) (hknown : (graph.headerForPath path).isSome)
    (hfree : path ∉ tracker.tempMark) :
    unmarked graph (tracker.enter path) < unmarked graph tracker := by
  refine Finset.card_lt_card ((Finset.ssubset_iff_of_subset ?_).2 ⟨path, ?_, ?_⟩)
  · exact Finset.sdiff_subset_sdiff (Finset.Subset.refl _) (Finset.subset_insert _ _)
  · exact Finset.mem_sdiff.2 ⟨List.mem_toFinset.2 ((hgraph.listed path).2 hknown), hfree⟩
  · exact fun hin => (Finset.mem_sdiff.1 hin).2 (Finset.mem_insert_self path _)

variable {fuel : Nat}

/-- What a visit of one path asks of its own visits, one level deeper. -/
def VisitsEnd (graph : DependencyGraph) (names : PathNames) (fuel : Nat)
    (visit : PathId → Option SourceSpan → DependencyTracker → List Header → Visit) : Prop :=
  ∀ path span tracker sorted, (graph.headerForPath path).isSome →
    Searching graph names tracker sorted → unmarked graph tracker < fuel →
    Ends graph names fuel [path] False tracker sorted (visit path span tracker sorted)

theorem visitDependencyEdge_ends
    {visit : PathId → Option SourceSpan → DependencyTracker → List Header → Visit}
    (hvisit : VisitsEnd graph names fuel visit) {edge : ResolvedDependencyEdge}
    (hedge : graph.Settled edge) (h : Searching graph names tracker sorted)
    (hfuel : unmarked graph tracker < fuel) :
    Ends graph names fuel (DependencyGraph.headerTarget edge).toList (edge.kind = .missing)
      tracker sorted (visitDependencyEdge visit edge tracker sorted) := by
  cases hedge with
  | @header path span hknown =>
      obtain ⟨result, tracker', sorted', heq, hout⟩ :=
        hvisit path span tracker sorted hknown h hfuel
      refine ⟨result, tracker', sorted', heq, hout.marks, hout.searching, fun hok => ?_,
        fun error herror hreach => ?_⟩
      · obtain ⟨hsorted, hin, -⟩ := hout.listed hok
        exact ⟨hsorted, hin, fun hkind => DependencyEdgeKind.noConfusion hkind⟩
      · exact .inr ((hout.blamed error herror hreach).resolve_left not_false)
  | @outside path span kind hunknown hkind =>
      have hmarked := h.markOutside hunknown
      rcases hkind with rfl | rfl
      all_goals
        refine ⟨.ok (), tracker.markVisited path, sorted, rfl, rfl, hmarked, fun _ => ?_,
          fun _ herror => by cases herror⟩
        refine ⟨rfl, fun _ htarget => absurd htarget List.not_mem_nil, ?_⟩
        exact fun hkind => DependencyEdgeKind.noConfusion hkind
  | @unresolved path span kind hkind =>
      rcases hkind with rfl | rfl | rfl
      · refine ⟨.ok (), tracker, sorted, rfl, rfl, h, fun _ => ?_, fun _ herror => by cases herror⟩
        refine ⟨rfl, fun _ htarget => absurd htarget List.not_mem_nil, ?_⟩
        exact fun hkind => DependencyEdgeKind.noConfusion hkind
      · refine ⟨.ok (), tracker, sorted, rfl, rfl, h, fun _ => ?_, fun _ herror => by cases herror⟩
        refine ⟨rfl, fun _ htarget => absurd htarget List.not_mem_nil, ?_⟩
        exact fun hkind => DependencyEdgeKind.noConfusion hkind
      · exact ⟨.error (.missingImportTarget path span), tracker, sorted, rfl, rfl, h,
          fun hok => (by cases hok), fun _ _ _ => .inl rfl⟩

theorem visitDependencyEdges_ends
    {visit : PathId → Option SourceSpan → DependencyTracker → List Header → Visit}
    (hvisit : VisitsEnd graph names fuel visit) {edges : List ResolvedDependencyEdge}
    (hedges : ∀ edge ∈ edges, graph.Settled edge) (h : Searching graph names tracker sorted)
    (hfuel : unmarked graph tracker < fuel) :
    Ends graph names fuel (edges.filterMap DependencyGraph.headerTarget)
      (∃ edge ∈ edges, edge.kind = .missing) tracker sorted
      (visitDependencyEdges visit edges tracker sorted) := by
  induction edges generalizing tracker sorted with
  | nil =>
      refine ⟨.ok (), tracker, sorted, rfl, rfl, h, fun _ => ⟨rfl, ?_, ?_⟩,
        fun _ herror => by cases herror⟩
      · exact fun _ htarget => absurd htarget List.not_mem_nil
      · exact fun ⟨_, hmem, _⟩ => absurd hmem List.not_mem_nil
  | cons edge rest ih =>
      have hsplit : (edge :: rest).filterMap DependencyGraph.headerTarget =
          (DependencyGraph.headerTarget edge).toList ++
            rest.filterMap DependencyGraph.headerTarget := by
        rw [List.filterMap_cons]
        cases DependencyGraph.headerTarget edge <;> rfl
      have hrest : ∀ edge ∈ rest, graph.Settled edge := fun edge hmem =>
        hedges edge (List.mem_cons_of_mem _ hmem)
      obtain ⟨first, tracker₁, sorted₁, hfirst, hout⟩ :=
        visitDependencyEdge_ends hvisit (hedges edge List.mem_cons_self) h hfuel
      rw [visitDependencyEdges, hfirst, hsplit]
      cases first with
      | error error =>
          refine ⟨.error error, tracker₁, sorted₁, rfl, hout.marks, hout.searching,
            fun hok => (by cases hok), fun _ _ hreach => ?_⟩
          refine (hout.blamed error rfl fun target htarget => ?_).imp_left fun hkind =>
            ⟨edge, List.mem_cons_self, hkind⟩
          exact hreach target (List.mem_append_left _ htarget)
      | ok _ =>
          have hfuel₁ : unmarked graph tracker₁ < fuel := by
            rw [unmarked, hout.marks]
            exact hfuel
          obtain ⟨hlisted, hin, hkind⟩ := hout.listed rfl
          obtain ⟨result, tracker₂, sorted₂, heq, hout₂⟩ := ih hrest hout.searching hfuel₁
          refine ⟨result, tracker₂, sorted₂, heq, hout₂.marks.trans hout.marks, hout₂.searching,
            fun hok => ?_, fun error herror hreach => ?_⟩
          · obtain ⟨hlisted₂, hin₂, hkinds⟩ := hout₂.listed hok
            refine ⟨by rw [hlisted₂, hlisted, List.foldl_append], fun target htarget => ?_, ?_⟩
            · rcases List.mem_append.1 htarget with htarget | htarget
              · rw [hlisted₂]
                exact foldl_subset (subset_postorder _ fuel) _ _ (hin target htarget)
              · exact hin₂ target htarget
            · rintro ⟨other, hother, hmissing⟩
              rcases List.mem_cons.1 hother with rfl | hother
              · exact hkind hmissing
              · exact hkinds ⟨other, hother, hmissing⟩
          · refine (hout₂.blamed error herror fun target htarget => ?_).imp_left
              fun ⟨other, hother, hmissing⟩ => ⟨other, List.mem_cons_of_mem _ hother, hmissing⟩
            rw [hout.marks]
            exact hreach target (List.mem_append_right _ htarget)

theorem misses_iff (hgraph : graph.WellFormed) {header : Header}
    {edges : List ResolvedDependencyEdge} (hheader : graph.headerForPath path = some header)
    (hedges : graph.sortedDependencyEdgesForHeader names header = some edges) :
    (∃ edge ∈ edges, edge.kind = .missing) ↔
      ∃ hint ∈ header.localOrderingHints, graph.Misses names header hint := by
  obtain ⟨edges', hedges', -, hsound, hunresolved, -⟩ :=
    DependencyGraph.sortedDependencyEdgesForHeader_spec names
      (hgraph.prepared path header hheader)
  cases hedges.symm.trans hedges'
  constructor
  · rintro ⟨edge, hedge, hkind⟩
    obtain ⟨hint, hhint, hresolve⟩ := hsound edge hedge
    exact ⟨hint, hhint, edge, hresolve, hkind⟩
  · rintro ⟨hint, hhint, edge, hresolve, hkind⟩
    refine ⟨edge, hunresolved hint hhint edge hresolve ?_, hkind⟩
    cases DependencyGraph.resolveDependencyEdge_settled hresolve with
    | header _ => cases hkind
    | outside _ hother =>
        rcases hother with h | h <;> exact DependencyEdgeKind.noConfusion (h.symm.trans hkind)
    | unresolved _ => rfl

theorem visitNode_ends (hgraph : graph.WellFormed) (fuel : Nat) :
    VisitsEnd graph names fuel (visitNode names graph fuel) := by
  induction fuel with
  | zero => exact fun _ _ _ _ _ _ hfuel => absurd hfuel (Nat.not_lt_zero _)
  | succ fuel ih =>
      intro path span tracker sorted hknown h hfuel
      obtain ⟨header, hheader⟩ := Option.isSome_iff_exists.1 hknown
      obtain ⟨edges, hedges, -, hsound, -, -⟩ :=
        DependencyGraph.sortedDependencyEdgesForHeader_spec names
          (hgraph.prepared path header hheader)
      have hneeds := DependencyGraph.needs_eq hheader hedges
      have hcounted : Searching graph names tracker.countVisit sorted :=
        ⟨h.kept, h.ordered, h.visited_iff, h.clean, h.separate⟩
      rw [visitNode]
      simp only [DependencyGraph.resolveRequestedPath_known hknown]
      by_cases hmarked : path ∈ tracker.countVisit.tempMark
      · -- the path is marked, so it needs itself
        rw [if_pos hmarked]
        refine ⟨_, _, _, rfl, rfl, hcounted, fun hok => (by cases hok), fun _ _ hreach => ?_⟩
        exact .inr (.inr ⟨path, hreach path (List.mem_singleton_self path) path hmarked⟩)
      rw [if_neg hmarked]
      by_cases hvisited : path ∈ tracker.countVisit.visited
      · rw [if_pos hvisited]
        have hin := (h.visited_iff path hknown).1 hvisited
        refine ⟨_, _, _, rfl, rfl, hcounted, fun _ => ⟨?_, ?_, not_false⟩,
          fun _ herror => by cases herror⟩
        · exact (postorder_of_mem hin).symm
        · exact fun target htarget => List.mem_singleton.1 htarget ▸ hin
      rw [if_neg hvisited, hheader]
      simp only [Option.bind_eq_bind, Option.bind_some, hedges]
      have hfresh : path ∉ sorted.map Header.declarationPath := fun hin =>
        hvisited ((h.visited_iff path hknown).2 hin)
      have hless : unmarked graph (tracker.countVisit.enter path) <
          unmarked graph tracker.countVisit := unmarked_enter hgraph hknown hmarked
      have hroom : unmarked graph (tracker.countVisit.enter path) < fuel :=
        Nat.lt_of_lt_of_le hless (Nat.le_of_lt_succ hfuel)
      obtain ⟨result, tracker', sorted', heq, hout⟩ := visitDependencyEdges_ends ih
        (fun edge hedge => by
          obtain ⟨_, -, hresolve⟩ := hsound edge hedge
          exact DependencyGraph.resolveDependencyEdge_settled hresolve)
        (hcounted.enter hfresh) hroom
      have hmarks : (tracker'.abandon path).tempMark = tracker.tempMark := by
        show tracker'.tempMark.erase path = tracker.tempMark
        rw [hout.marks]
        exact Finset.erase_insert hmarked
      rw [heq, Option.bind_some]
      cases result with
      | error error =>
          refine ⟨.error error, tracker'.abandon path, sorted', rfl, hmarks, hout.searching.abandon,
            fun hok => (by cases hok), fun _ _ hreach => .inr ?_⟩
          have hthrough : ∀ target ∈ edges.filterMap DependencyGraph.headerTarget,
              ∀ marked ∈ (tracker.countVisit.enter path).tempMark,
                NeedsThrough graph names marked target := by
            intro target htarget marked hin
            have hstep : target ∈ graph.needs names path := hneeds ▸ htarget
            rcases Finset.mem_insert.1 hin with rfl | hin
            · exact .single hstep
            · exact (hreach path (List.mem_singleton_self path) marked hin).tail hstep
          rcases hout.blamed error rfl hthrough with hmissing | hflawed
          · exact .inl ⟨path, header, hheader, (misses_iff hgraph hheader hedges).1 hmissing⟩
          · exact hflawed
      | ok _ =>
          obtain ⟨hlisted, hmet, hclean⟩ := hout.listed rfl
          rw [← hneeds] at hlisted hmet
          have hpath : path ∈ tracker'.tempMark := by
            rw [hout.marks]
            exact Finset.mem_insert_self path _
          have howned := hgraph.owned path header hheader
          refine ⟨.ok (), tracker'.finish path, sorted' ++ [header], rfl, hmarks,
            hout.searching.finish hheader howned hpath hmet fun hint hhint hmisses =>
              hclean ((misses_iff hgraph hheader hedges).2 ⟨hint, hhint, hmisses⟩),
            fun _ => ⟨?_, fun target htarget => ?_, not_false⟩, fun _ herror => by cases herror⟩
          · rw [List.map_append, List.map_singleton, howned, hlisted, List.foldl_cons,
              List.foldl_nil, postorder, if_neg hfresh]
          · rw [List.map_append, List.map_singleton, howned, List.mem_singleton.1 htarget]
            exact List.mem_append_right _ (List.mem_singleton_self path)

end Moth.Headers
