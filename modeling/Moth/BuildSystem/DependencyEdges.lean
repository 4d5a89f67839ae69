import Moth.BuildSystem.ProjectModuleGraph

/-!
# The adjacency of the inserted edges

Whatever calls were made, the two tables are the rows and columns of one
relation: the edges that were offered between two different modules of the
graph. Sorted rows make the tables a function of that relation.
-/

namespace Moth.BuildSystem

open Moth.Lib

/-- The edges among the offered ones that the graph accepts. -/
def DependsOn (moduleCount : Nat) (offered : List (Nat × Nat)) (provider consumer : Nat) : Prop :=
  (provider, consumer) ∈ offered ∧ provider < moduleCount ∧ consumer < moduleCount ∧
    provider ≠ consumer

/-- A table whose row for each module lists the modules related to it, in order. -/
structure RowsOf (moduleCount : Nat) (related : Nat → Nat → Prop) (rows : List (List Nat)) :
    Prop where
  length_eq : rows.length = moduleCount
  row : ∀ i row, rows[i]? = some row → Ascending row ∧ ∀ j, j ∈ row ↔ related j i

namespace RowsOf

variable {moduleCount : Nat} {related : Nat → Nat → Prop} {rows : List (List Nat)}

theorem get (h : RowsOf moduleCount related rows) {i : Nat} (hi : i < moduleCount) :
    ∃ row, rows[i]? = some row ∧ Ascending row ∧ ∀ j, j ∈ row ↔ related j i := by
  rw [← h.length_eq] at hi
  exact ⟨rows[i], List.getElem?_eq_getElem hi, h.row i _ (List.getElem?_eq_getElem hi)⟩

theorem empty (moduleCount : Nat) :
    RowsOf moduleCount (fun _ _ => False) (List.replicate moduleCount []) where
  length_eq := List.length_replicate
  row := by
    intro i row hrow
    rw [List.eq_of_mem_replicate (List.mem_of_getElem? hrow)]
    exact ⟨List.Pairwise.nil, fun j => iff_of_false List.not_mem_nil id⟩

theorem congr {related' : Nat → Nat → Prop} (h : RowsOf moduleCount related rows)
    (hsame : ∀ j i, related j i ↔ related' j i) : RowsOf moduleCount related' rows where
  length_eq := h.length_eq
  row := fun i row hrow =>
    ⟨(h.row i row hrow).1, fun j => ((h.row i row hrow).2 j).trans (hsame j i)⟩

theorem insert (h : RowsOf moduleCount related rows) {x i : Nat} {row : List Nat}
    (hrow : rows[i]? = some row) :
    RowsOf moduleCount (fun j k => related j k ∨ j = x ∧ k = i)
      (rows.set i (insertSorted x row)) where
  length_eq := by rw [List.length_set, h.length_eq]
  row := by
    intro k other hother
    obtain ⟨hi, -⟩ := List.getElem?_eq_some_iff.1 hrow
    by_cases hk : i = k
    · subst hk
      rw [List.getElem?_set_self hi] at hother
      cases hother
      refine ⟨(h.row i row hrow).1.insertSorted, fun j => ?_⟩
      rw [mem_insertSorted, (h.row i row hrow).2 j, or_comm, and_iff_left rfl]
    · rw [List.getElem?_set_ne hk] at hother
      refine ⟨(h.row k other hother).1, fun j => ?_⟩
      rw [(h.row k other hother).2 j, or_iff_left]
      exact fun hx => hk hx.2.symm

theorem unique {rows' : List (List Nat)} (h : RowsOf moduleCount related rows)
    (h' : RowsOf moduleCount related rows') : rows = rows' := by
  refine List.ext_getElem? fun i => ?_
  by_cases hi : i < moduleCount
  · obtain ⟨row, hrow, hsorted, hmem⟩ := h.get hi
    obtain ⟨row', hrow', hsorted', hmem'⟩ := h'.get hi
    rw [hrow, hrow', hsorted.ext hsorted' fun j => (hmem j).trans (hmem' j).symm]
  · rw [List.getElem?_eq_none (by rw [h.length_eq]; omega),
      List.getElem?_eq_none (by rw [h'.length_eq]; omega)]

end RowsOf

/-! ## Insertion -/

/-- A graph under construction whose tables mirror each other. -/
structure Holds (graph : ProjectModuleGraph) (nodes : List ProjectModuleGraphNode)
    (edge : Nat → Nat → Prop) (dependencyProviders providerConsumers : List (List Nat)) : Prop where
  nodes_eq : graph.nodes = nodes
  dependencies_eq : graph.dependencies =
    .underConstruction dependencyProviders providerConsumers
  providers : RowsOf nodes.length edge dependencyProviders
  consumers : RowsOf nodes.length (fun consumer provider => edge provider consumer)
    providerConsumers

namespace Holds

variable {graph : ProjectModuleGraph} {nodes : List ProjectModuleGraphNode}
  {edge : Nat → Nat → Prop} {dependencyProviders providerConsumers : List (List Nat)}

theorem congr {edge' : Nat → Nat → Prop}
    (h : Holds graph nodes edge dependencyProviders providerConsumers)
    (hsame : ∀ p c, edge p c ↔ edge' p c) :
    Holds graph nodes edge' dependencyProviders providerConsumers where
  nodes_eq := h.nodes_eq
  dependencies_eq := h.dependencies_eq
  providers := h.providers.congr hsame
  consumers := h.consumers.congr fun c p => hsame p c

theorem addDependencyEdge (h : Holds graph nodes edge dependencyProviders providerConsumers)
    (provider consumer : Nat) :
    (∃ failure, graph.addDependencyEdge provider consumer = some (.error failure) ∧
      ¬ (provider < nodes.length ∧ consumer < nodes.length ∧ provider ≠ consumer)) ∨
    ∃ outcome next providers' consumers',
      graph.addDependencyEdge provider consumer = some (.ok (outcome, next)) ∧
      (provider < nodes.length ∧ consumer < nodes.length ∧ provider ≠ consumer) ∧
      Holds next nodes (fun p c => edge p c ∨ p = provider ∧ c = consumer)
        providers' consumers' := by
  have hcount : graph.nodeCount = nodes.length := congrArg List.length h.nodes_eq
  rw [ProjectModuleGraph.addDependencyEdge, ProjectModuleGraph.isValidModuleId,
    ProjectModuleGraph.isValidModuleId, hcount]
  by_cases hvalid : provider < nodes.length ∧ consumer < nodes.length
  · obtain ⟨hprovider, hconsumer⟩ := hvalid
    rw [decide_eq_true hprovider, decide_eq_true hconsumer, if_neg (by decide)]
    by_cases hself : provider = consumer
    · rw [if_pos hself]
      exact .inl ⟨_, rfl, fun hin => hin.2.2 hself⟩
    · rw [if_neg hself, h.dependencies_eq]
      obtain ⟨row, hrow, hsorted, hmem⟩ := h.providers.get hconsumer
      obtain ⟨column, hcolumn, -, -⟩ := h.consumers.get hprovider
      simp only [hrow, hcolumn, Option.bind_eq_bind, Option.bind_some]
      right
      by_cases hin : provider ∈ row
      · rw [if_pos hin]
        refine ⟨_, _, _, _, rfl, ⟨hprovider, hconsumer, hself⟩, h.congr fun p c => ?_⟩
        refine ⟨.inl, ?_⟩
        rintro (hedge | ⟨rfl, rfl⟩)
        · exact hedge
        · exact (hmem p).1 hin
      · rw [if_neg hin]
        refine ⟨_, _, _, _, rfl, ⟨hprovider, hconsumer, hself⟩, h.nodes_eq, rfl, ?_, ?_⟩
        · exact h.providers.insert hrow
        · exact (h.consumers.insert hcolumn).congr fun c p => or_congr_right and_comm
  · have hinvalid : (!decide (provider < nodes.length) || !decide (consumer < nodes.length)) =
        true := by
      rw [← Bool.not_and, ← Bool.decide_and, decide_eq_false hvalid]
      rfl
    rw [if_pos hinvalid]
    exact .inl ⟨_, rfl, fun hin => hvalid ⟨hin.1, hin.2.1⟩⟩

/-- After any sequence of calls the tables hold the edges that were accepted. -/
theorem addDependencyEdges (offered : List (Nat × Nat))
    (h : Holds graph nodes edge dependencyProviders providerConsumers) :
    ∃ final providers' consumers', graph.addDependencyEdges offered = some final ∧
      Holds final nodes (fun p c => edge p c ∨ DependsOn nodes.length offered p c)
        providers' consumers' := by
  induction offered generalizing graph edge dependencyProviders providerConsumers with
  | nil =>
      refine ⟨graph, _, _, rfl, h.congr fun p c => ?_⟩
      rw [or_iff_left]
      exact fun hin => List.not_mem_nil hin.1
  | cons call rest ih =>
      obtain ⟨provider, consumer⟩ := call
      rcases h.addDependencyEdge provider consumer with
        ⟨failure, hcall, hinvalid⟩ | ⟨outcome, next, providers', consumers', hcall, hvalid, hnext⟩
      · obtain ⟨final, providers', consumers', hfinal, hholds⟩ := ih h
        refine ⟨final, providers', consumers', ?_, hholds.congr fun p c => or_congr_right ?_⟩
        · rw [ProjectModuleGraph.addDependencyEdges, hcall]
          exact hfinal
        · rw [DependsOn, DependsOn, List.mem_cons]
          refine ⟨fun hin => ⟨.inr hin.1, hin.2⟩, ?_⟩
          rintro ⟨heq | hin, hvalid⟩
          · cases heq
            exact absurd hvalid hinvalid
          · exact ⟨hin, hvalid⟩
      · obtain ⟨final, providers'', consumers'', hfinal, hholds⟩ := ih hnext
        refine ⟨final, providers'', consumers'', ?_, hholds.congr fun p c => ?_⟩
        · rw [ProjectModuleGraph.addDependencyEdges, hcall]
          exact hfinal
        · rw [DependsOn, DependsOn, List.mem_cons, Prod.mk.injEq]
          constructor
          · rintro ((hedge | ⟨rfl, rfl⟩) | ⟨hin, hbounds⟩)
            · exact .inl hedge
            · exact .inr ⟨.inl ⟨rfl, rfl⟩, hvalid⟩
            · exact .inr ⟨.inr hin, hbounds⟩
          · rintro (hedge | ⟨hnew | hin, hbounds⟩)
            · exact .inl (.inl hedge)
            · exact .inl (.inr hnew)
            · exact .inr ⟨hin, hbounds⟩

end Holds

/-! ## Completed graphs -/

/-- The graph over some modules after any sequence of calls and `complete`. -/
def completed (modulePaths : List String) (offered : List (Nat × Nat)) :
    Option ProjectModuleGraph := do
  let graph ← (ProjectModuleGraph.fromSourceTreeIndex modulePaths).addDependencyEdges offered
  match graph.complete with
  | .error _ => none
  | .ok graph => pure graph

theorem completed_eq (modulePaths : List String) (offered : List (Nat × Nat)) :
    ∃ dependencyProviders providerConsumers,
      completed modulePaths offered =
        some ⟨(ProjectModuleGraph.fromSourceTreeIndex modulePaths).nodes,
          .frozen dependencyProviders providerConsumers⟩ ∧
      RowsOf modulePaths.length (DependsOn modulePaths.length offered) dependencyProviders ∧
      RowsOf modulePaths.length
        (fun consumer provider => DependsOn modulePaths.length offered provider consumer)
        providerConsumers := by
  have hlength : (ProjectModuleGraph.fromSourceTreeIndex modulePaths).nodes.length =
      modulePaths.length := by
    rw [ProjectModuleGraph.fromSourceTreeIndex, List.length_map, List.length_zipIdx]
  have hempty : Holds (ProjectModuleGraph.fromSourceTreeIndex modulePaths)
      (ProjectModuleGraph.fromSourceTreeIndex modulePaths).nodes (fun _ _ => False)
      (List.replicate modulePaths.length []) (List.replicate modulePaths.length []) := by
    refine ⟨rfl, rfl, ?_, ?_⟩
    · rw [hlength]
      exact RowsOf.empty _
    · rw [hlength]
      exact RowsOf.empty _
  obtain ⟨final, providers, consumers, hfinal, hholds⟩ := hempty.addDependencyEdges offered
  have hsame : Holds final _ (DependsOn modulePaths.length offered) providers consumers :=
    hholds.congr fun p c => by rw [hlength, false_or]
  refine ⟨providers, consumers, ?_, hlength ▸ hsame.providers, hlength ▸ hsame.consumers⟩
  rw [completed, hfinal, Option.bind_eq_bind, Option.bind_some, ProjectModuleGraph.complete,
    hsame.dependencies_eq, hsame.nodes_eq]
  rfl

end Moth.BuildSystem
