import Moth.Headers.ModuleDependencies
import Moth.Lib.Result
import Moth.Lib.Table

/-!
# What the hints of a header resolve to

The edges of a header keep every header its hints resolve to, once, in source
order, and every hint that resolves to nothing. So what a header needs, and in
which order, does not depend on the order in which its hints are iterated.
-/

namespace Moth.Headers

open Moth.Lib Moth.Symbols Moth.Source

namespace DependencyGraph

variable (self : DependencyGraph) (names : PathNames)

/-- The hint of a header resolves to the header of a path. -/
def ResolvesTo (header : Header) (hint : LocalDeclarationOrderingHint) (path : PathId) : Prop :=
  ∃ edge, self.resolveDependencyEdge names header hint = some edge ∧ edge.kind = .graphHeader ∧
    edge.resolvedPath = some path

/-- The hint of a header resolves to a missing target. -/
def Misses (header : Header) (hint : LocalDeclarationOrderingHint) : Prop :=
  ∃ edge, self.resolveDependencyEdge names header hint = some edge ∧ edge.kind = .missing

/-- One entry for each header, under its own path and at a place of its own. -/
structure WellFormed (graph : DependencyGraph) : Prop where
  prepared : ∀ path header, graph.headerForPath path = some header →
    (graph.sourcePathsBySourceId header.source).isSome
  owned : ∀ path header, graph.headerForPath path = some header → header.declarationPath = path
  placed : ∀ path header, graph.headerForPath path = some header →
    ∃ place, graph.sourceOrderByPath.lookup path = some place
  apart : ∀ path other place, graph.sourceOrderByPath.lookup path = some place →
    graph.sourceOrderByPath.lookup other = some place → path = other
  listed : ∀ path, path ∈ graph.orderedPaths ↔ (graph.headerForPath path).isSome

/-- The forms an edge can have. -/
inductive Settled : ResolvedDependencyEdge → Prop
  | header {path : PathId} {span : Option SourceSpan} (known : (self.headerForPath path).isSome) :
      Settled ⟨path, some path, span, self.sourceOrderByPath.lookup path, .graphHeader⟩
  | outside {path : PathId} {span : Option SourceSpan} {kind : DependencyEdgeKind}
      (unknown : self.headerForPath path = none)
      (hkind : kind = .providerInterface ∨ kind = .sourcePackagePublicExport) :
      Settled ⟨path, some path, span, none, kind⟩
  | unresolved {path : PathId} {span : Option SourceSpan} {kind : DependencyEdgeKind}
      (hkind : kind = .sameFileSymbolHint ∨ kind = .missingContentSource ∨ kind = .missing) :
      Settled ⟨path, none, span, none, kind⟩

variable {self names}

theorem resolveRequestedPath_known {path : PathId} (h : (self.headerForPath path).isSome) :
    self.resolveRequestedPath names path = some (.header path) := by
  rw [resolveRequestedPath, if_pos h]

theorem resolveRequestedPath_unknown (names : PathNames) {path : PathId}
    (h : self.headerForPath path = none) :
    self.resolveRequestedPath names path = some (.providerInterface path) ∨
      self.resolveRequestedPath names path = some (.sourcePackagePublicExport path) ∨
      self.resolveRequestedPath names path = none := by
  rw [resolveRequestedPath, h, if_neg (by decide)]
  split
  · exact .inl rfl
  · split
    · exact .inr (.inl rfl)
    · exact .inr (.inr rfl)

theorem resolveDependencyEdge_settled {header : Header} {hint : LocalDeclarationOrderingHint}
    {edge : ResolvedDependencyEdge} (h : self.resolveDependencyEdge names header hint = some edge) :
    self.Settled edge := by
  rw [resolveDependencyEdge] at h
  split at h
  · cases h
    exact .unresolved (.inr (.inl rfl))
  · rename_i path _
    rw [sourceOrderForRequestedPath] at h
    cases hheader : self.headerForPath path with
    | some found =>
        have hknown : (self.headerForPath path).isSome := by rw [hheader]; rfl
        rw [resolveRequestedPath_known hknown] at h
        cases h
        exact .header hknown
    | none =>
        rcases resolveRequestedPath_unknown names hheader with hpath | hpath | hpath
        · rw [hpath] at h
          cases h
          exact .outside hheader (.inl rfl)
        · rw [hpath] at h
          cases h
          exact .outside hheader (.inr rfl)
        · rw [hpath] at h
          cases hsource : self.sourcePathsBySourceId header.source with
          | none =>
              rw [hsource] at h
              cases h
          | some sourceFile =>
              rw [hsource] at h
              simp only [Option.bind_eq_bind, Option.bind_some] at h
              split at h
              · cases h
                exact .unresolved (.inl rfl)
              · split at h
                · cases h
                  exact .unresolved (.inr (.inl rfl))
                · cases h
                  exact .unresolved (.inr (.inr rfl))

theorem resolveDependencyEdge_isSome (names : PathNames) {header : Header}
    (hint : LocalDeclarationOrderingHint) (h : (self.sourcePathsBySourceId header.source).isSome) :
    (self.resolveDependencyEdge names header hint).isSome := by
  obtain ⟨sourceFile, hsource⟩ := Option.isSome_iff_exists.1 h
  rw [resolveDependencyEdge, hsource]
  simp only [Option.bind_eq_bind, Option.bind_some]
  split
  · rfl
  · split
    · rfl
    · rfl
    · rfl
    · split
      · rfl
      · split <;> rfl

/-! ## The edges that are kept -/

/-- The header an edge leads to. -/
def headerTarget (edge : ResolvedDependencyEdge) : Option PathId :=
  if edge.kind = .graphHeader then edge.resolvedPath else none

theorem Settled.headerTarget_iff {edge : ResolvedDependencyEdge} (h : self.Settled edge)
    {path : PathId} : headerTarget edge = some path ↔
      edge.resolvedPath = some path ∧ (self.headerForPath path).isSome := by
  cases h with
  | header hknown =>
      rw [headerTarget, if_pos rfl]
      exact ⟨fun heq => ⟨heq, Option.some.inj heq ▸ hknown⟩, And.left⟩
  | outside hunknown hkind =>
      have hne : ¬_ = DependencyEdgeKind.graphHeader := fun heq => by
        rcases hkind with h | h <;> exact DependencyEdgeKind.noConfusion (h.symm.trans heq)
      rw [headerTarget, if_neg hne]
      refine ⟨fun heq => absurd heq (by simp), fun hpath => ?_⟩
      rw [← Option.some.inj hpath.1, hunknown] at hpath
      exact absurd hpath.2 (by simp)
  | unresolved hkind =>
      have hne : ¬_ = DependencyEdgeKind.graphHeader := fun heq => by
        rcases hkind with h | h | h <;> exact DependencyEdgeKind.noConfusion (h.symm.trans heq)
      rw [headerTarget, if_neg hne]
      exact ⟨fun heq => absurd heq (by simp), fun hpath => absurd hpath.1 (by simp)⟩

theorem keepFirst_sublist (seenTargets : List PathId) (edges : List ResolvedDependencyEdge) :
    (keepFirst seenTargets edges).Sublist edges := by
  induction edges generalizing seenTargets with
  | nil => exact List.Sublist.refl _
  | cons edge rest ih =>
      rw [keepFirst]
      split
      · exact (ih _).cons_cons edge
      · split
        · exact (ih _).cons edge
        · exact (ih _).cons_cons edge

theorem keepFirst_unresolved {seenTargets : List PathId} {edges : List ResolvedDependencyEdge}
    {edge : ResolvedDependencyEdge} (hmem : edge ∈ edges) (h : edge.resolvedPath = none) :
    edge ∈ keepFirst seenTargets edges := by
  induction edges generalizing seenTargets with
  | nil => exact absurd hmem List.not_mem_nil
  | cons first rest ih =>
      rw [keepFirst]
      rcases List.mem_cons.1 hmem with rfl | hmem
      · rw [h]
        exact List.mem_cons_self
      · split
        · exact List.mem_cons_of_mem _ (ih hmem)
        · split
          · exact ih hmem
          · exact List.mem_cons_of_mem _ (ih hmem)

theorem keepFirst_target {seenTargets : List PathId} {edges : List ResolvedDependencyEdge}
    {path : PathId} : (∃ edge ∈ keepFirst seenTargets edges, edge.resolvedPath = some path) ↔
      path ∉ seenTargets ∧ ∃ edge ∈ edges, edge.resolvedPath = some path := by
  induction edges generalizing seenTargets with
  | nil => simp [keepFirst]
  | cons first rest ih =>
      rw [keepFirst]
      cases hfirst : first.resolvedPath with
      | none => simp [hfirst, ih]
      | some target =>
          dsimp only
          by_cases hin : target ∈ seenTargets
          · rw [if_pos hin, ih]
            refine and_congr_right fun hout => ?_
            have hne : target ≠ path := fun heq => hout (heq ▸ hin)
            simp [hfirst, hne]
          · rw [if_neg hin]
            simp only [List.mem_cons, exists_eq_or_imp, hfirst, Option.some.injEq, ih]
            by_cases heq : target = path
            · subst heq
              simp [hin]
            · simp [heq, Ne.symm heq]

/-- Two edges with targets have different ones. -/
def Apart (edge other : ResolvedDependencyEdge) : Prop :=
  edge.resolvedPath = none ∨ edge.resolvedPath ≠ other.resolvedPath

theorem Apart.symm {edge other : ResolvedDependencyEdge} (h : Apart edge other) :
    Apart other edge := by
  rcases h with h | h
  · rw [Apart, h]
    exact (em (other.resolvedPath = none)).imp_right fun hne => hne
  · exact .inr (Ne.symm h)

theorem keepFirst_apart (seenTargets : List PathId) (edges : List ResolvedDependencyEdge) :
    (keepFirst seenTargets edges).Pairwise Apart := by
  induction edges generalizing seenTargets with
  | nil => exact List.Pairwise.nil
  | cons first rest ih =>
      rw [keepFirst]
      split
      · rename_i hnone
        exact List.pairwise_cons.2 ⟨fun _ _ => .inl hnone, ih _⟩
      · rename_i target htarget
        split
        · exact ih _
        · refine List.pairwise_cons.2 ⟨fun edge hedge => .inr fun heq => ?_, ih _⟩
          have := keepFirst_target.1 ⟨edge, hedge, heq.symm.trans htarget⟩
          exact this.1 List.mem_cons_self

/-! ## In source order -/

theorem edgeLe_trans (a b c : ResolvedDependencyEdge) (hab : edgeLe names a b = true)
    (hbc : edgeLe names b c = true) : edgeLe names a c = true := by
  rw [edgeLe] at hab hbc ⊢
  by_cases h : sourceOrderForEdge a = sourceOrderForEdge b
  · rw [if_pos h, decide_eq_true_eq] at hab
    by_cases h' : sourceOrderForEdge b = sourceOrderForEdge c
    · rw [if_pos h', decide_eq_true_eq] at hbc
      rw [if_pos (h.trans h'), decide_eq_true_eq]
      exact String.le_trans hab hbc
    · rw [if_neg h'] at hbc
      rw [h, if_neg h']
      exact hbc
  · rw [if_neg h, decide_eq_true_eq] at hab
    by_cases h' : sourceOrderForEdge b = sourceOrderForEdge c
    · rw [← h', if_neg h, decide_eq_true_eq]
      exact hab
    · rw [if_neg h', decide_eq_true_eq] at hbc
      rw [if_neg (by omega), decide_eq_true_eq]
      omega

theorem edgeLe_total (a b : ResolvedDependencyEdge) :
    (edgeLe names a b || edgeLe names b a) = true := by
  rw [edgeLe, edgeLe, Bool.or_eq_true]
  by_cases h : sourceOrderForEdge a = sourceOrderForEdge b
  · rw [if_pos h, if_pos h.symm, decide_eq_true_eq, decide_eq_true_eq]
    exact String.le_total _ _
  · rw [if_neg h, if_neg (Ne.symm h), decide_eq_true_eq, decide_eq_true_eq]
    omega

theorem le_of_edgeLe {a b : ResolvedDependencyEdge} (h : edgeLe names a b = true) :
    sourceOrderForEdge a ≤ sourceOrderForEdge b := by
  rw [edgeLe] at h
  split at h
  · omega
  · rw [decide_eq_true_eq] at h
    omega

/-- What the edges of a header keep of the edges its hints resolve to. -/
theorem sortedDependencyEdgesForHeader_spec (names : PathNames) {header : Header}
    (h : (self.sourcePathsBySourceId header.source).isSome) :
    ∃ edges, self.sortedDependencyEdgesForHeader names header = some edges ∧
      edges.Pairwise (fun edge other => edgeLe names edge other = true ∧ Apart edge other) ∧
      (∀ edge ∈ edges, ∃ hint ∈ header.localOrderingHints,
        self.resolveDependencyEdge names header hint = some edge) ∧
      (∀ hint ∈ header.localOrderingHints, ∀ edge,
        self.resolveDependencyEdge names header hint = some edge →
        edge.resolvedPath = none → edge ∈ edges) ∧
      ∀ hint ∈ header.localOrderingHints, ∀ edge path,
        self.resolveDependencyEdge names header hint = some edge →
        edge.resolvedPath = some path → ∃ kept ∈ edges, kept.resolvedPath = some path := by
  obtain ⟨resolved, hresolved, hmem⟩ := option_mapM_of_isSome
    fun hint (_ : hint ∈ header.localOrderingHints) =>
      resolveDependencyEdge_isSome names hint h
  have hperm := List.mergeSort_perm (keepFirst [] resolved) (edgeLe names)
  refine ⟨_, by rw [sortedDependencyEdgesForHeader, hresolved]; rfl, ?_, ?_, ?_, ?_⟩
  · refine (List.pairwise_mergeSort edgeLe_trans edgeLe_total _).and ?_
    exact (hperm.pairwise_iff fun h => h.symm).2 (keepFirst_apart [] resolved)
  · intro edge hedge
    exact (hmem edge).1 ((keepFirst_sublist [] resolved).subset (hperm.mem_iff.1 hedge))
  · intro hint hhint edge hedge hnone
    exact hperm.mem_iff.2 (keepFirst_unresolved ((hmem edge).2 ⟨hint, hhint, hedge⟩) hnone)
  · intro hint hhint edge path hedge hpath
    obtain ⟨kept, hkept, htarget⟩ := keepFirst_target.2
      ⟨List.not_mem_nil, edge, (hmem edge).2 ⟨hint, hhint, hedge⟩, hpath⟩
    exact ⟨kept, hperm.mem_iff.2 hkept, htarget⟩

/-! ## What a header needs -/

variable (self names)

/-- The headers the edges of a path lead to, in the order they are visited. -/
def needs (path : PathId) : List PathId :=
  (((self.headerForPath path).bind (self.sortedDependencyEdgesForHeader names)).getD []).filterMap
    headerTarget

variable {self names}

theorem needs_eq {path : PathId} {header : Header} {edges : List ResolvedDependencyEdge}
    (hheader : self.headerForPath path = some header)
    (hedges : self.sortedDependencyEdgesForHeader names header = some edges) :
    self.needs names path = edges.filterMap headerTarget := by
  rw [needs, hheader, Option.bind_some, hedges, Option.getD_some]

theorem ResolvesTo.known {header : Header} {hint : LocalDeclarationOrderingHint} {path : PathId}
    (h : self.ResolvesTo names header hint path) : (self.headerForPath path).isSome := by
  obtain ⟨edge, hedge, hkind, hpath⟩ := h
  have htarget : headerTarget edge = some path := by rw [headerTarget, if_pos hkind, hpath]
  exact ((resolveDependencyEdge_settled hedge).headerTarget_iff.1 htarget).2

theorem WellFormed.mem_needs (hgraph : self.WellFormed) {path target : PathId} {header : Header}
    (hheader : self.headerForPath path = some header) :
    target ∈ self.needs names path ↔
      ∃ hint ∈ header.localOrderingHints, self.ResolvesTo names header hint target := by
  obtain ⟨edges, hedges, -, hsound, -, hkept⟩ :=
    sortedDependencyEdgesForHeader_spec names (hgraph.prepared path header hheader)
  rw [needs_eq hheader hedges, List.mem_filterMap]
  constructor
  · rintro ⟨edge, hedge, htarget⟩
    obtain ⟨hint, hhint, hresolve⟩ := hsound edge hedge
    rw [headerTarget] at htarget
    split at htarget
    · exact ⟨hint, hhint, edge, hresolve, ‹_›, htarget⟩
    · cases htarget
  · rintro ⟨hint, hhint, hresolves⟩
    have hknown := hresolves.known
    obtain ⟨edge, hresolve, -, hpath⟩ := hresolves
    obtain ⟨kept, hmem, htarget⟩ := hkept hint hhint edge target hresolve hpath
    obtain ⟨_, -, hfrom⟩ := hsound kept hmem
    exact ⟨kept, hmem, (resolveDependencyEdge_settled hfrom).headerTarget_iff.2 ⟨htarget, hknown⟩⟩

/-- The place of a path among the headers. -/
def place (self : DependencyGraph) (path : PathId) : Nat :=
  (self.sourceOrderByPath.lookup path).getD usizeMax

theorem Settled.place_eq {edge : ResolvedDependencyEdge} (h : self.Settled edge) {path : PathId}
    (htarget : headerTarget edge = some path) : sourceOrderForEdge edge = self.place path := by
  have hpath := (h.headerTarget_iff.1 htarget).1
  cases h with
  | header _ => rw [sourceOrderForEdge, place, ← Option.some.inj hpath]
  | outside _ hkind =>
      rw [headerTarget] at htarget
      split at htarget
      · rename_i heq
        rcases hkind with h | h <;> exact DependencyEdgeKind.noConfusion (h.symm.trans heq)
      · cases htarget
  | unresolved _ => cases hpath

theorem WellFormed.place_inj (hgraph : self.WellFormed) {path other : PathId}
    (hpath : (self.headerForPath path).isSome) (hother : (self.headerForPath other).isSome)
    (h : self.place path = self.place other) : path = other := by
  obtain ⟨header, hheader⟩ := Option.isSome_iff_exists.1 hpath
  obtain ⟨header', hheader'⟩ := Option.isSome_iff_exists.1 hother
  obtain ⟨i, hi⟩ := hgraph.placed path header hheader
  obtain ⟨j, hj⟩ := hgraph.placed other header' hheader'
  rw [place, place, hi, hj, Option.getD_some, Option.getD_some] at h
  exact hgraph.apart path other i hi (h ▸ hj)

theorem WellFormed.needs_ascending (hgraph : self.WellFormed) (names : PathNames) (path : PathId) :
    (self.needs names path).Pairwise fun target other => self.place target < self.place other := by
  cases hheader : self.headerForPath path with
  | none =>
      rw [needs, hheader]
      exact List.Pairwise.nil
  | some header =>
      obtain ⟨edges, hedges, hsorted, hsound, -, -⟩ :=
        sortedDependencyEdgesForHeader_spec names (hgraph.prepared path header hheader)
      rw [needs_eq hheader hedges, List.pairwise_filterMap]
      refine (List.Pairwise.and_mem.1 hsorted).imp ?_
      rintro edge edge' ⟨hmem, hmem', hle, hapart⟩ target htarget other hother
      obtain ⟨_, -, hfrom⟩ := hsound edge hmem
      obtain ⟨_, -, hfrom'⟩ := hsound edge' hmem'
      have hsettled := resolveDependencyEdge_settled hfrom
      have hsettled' := resolveDependencyEdge_settled hfrom'
      obtain ⟨hpath, hknown⟩ := hsettled.headerTarget_iff.1 htarget
      obtain ⟨hpath', hknown'⟩ := hsettled'.headerTarget_iff.1 hother
      have hplace := le_of_edgeLe hle
      rw [hsettled.place_eq htarget, hsettled'.place_eq hother] at hplace
      refine Nat.lt_of_le_of_ne hplace fun heq => ?_
      have hsame := hgraph.place_inj hknown hknown' heq
      rcases hapart with hnone | hne
      · rw [hnone] at hpath
        cases hpath
      · exact hne (hpath.trans (hsame ▸ hpath'.symm))

theorem WellFormed.needs_congr {other : DependencyGraph} {names' : PathNames}
    (hgraph : self.WellFormed) (hother : other.WellFormed) {path : PathId}
    (hplace : ∀ target, self.place target = other.place target)
    (hmem : ∀ target, target ∈ self.needs names path ↔ target ∈ other.needs names' path) :
    self.needs names path = other.needs names' path := by
  have hsorted := hgraph.needs_ascending names path
  have hsorted' := hother.needs_ascending names' path
  simp only [← hplace] at hsorted'
  refine List.Perm.eq_of_pairwise (fun a b _ _ hab hba => absurd (hab.trans hba) (lt_irrefl _))
    hsorted hsorted' ((List.perm_ext_iff_of_nodup ?_ ?_).2 hmem)
  · exact hsorted.imp fun hlt heq => absurd (heq ▸ hlt) (lt_irrefl _)
  · exact hsorted'.imp fun hlt heq => absurd (heq ▸ hlt) (lt_irrefl _)

end DependencyGraph

end Moth.Headers
