import Mathlib.Data.List.Perm.Basic
import Mathlib.Data.Multiset.AddSub
import Moth.Hir.ReachabilityOrder

/-!
# Independence of the order of the roots

Two root lists with the same members give the same selection, the same sets of
call targets and every other use as often. The vectors may list them in
another order, and another function may be the first with a project context.
-/

namespace Moth.Hir

open Moth.Lib Moth.Source

variable {hir : HirModule} {side : HirSideFacts} {facts : HirModuleLinkFacts}
  {roots roots' : List FunctionId} {state : UnionState}

/-! ## What is used, and how often -/

/-- The reached uses in no order. -/
structure UseTotals where
  crossModuleFunctions : Finset Nat
  modulePrivateFunctions : Finset Nat
  generatedFunctions : Finset Nat
  externalFunctions : Finset Nat
  externalCalls : Multiset ReachableExternalCall
  mapUses : Multiset ReachableMapUse
  resourceUses : Multiset ReachableResourceUse
  siteRootUses : Multiset ReachableSiteRootUse
  runtimeCasts : Multiset ReachableRuntimeCastUse
  numericOps : Multiset ReachableNumericOpUse
  loopStepFailures : Multiset ReachableLoopStepFailureUse
  floatStatements : Multiset ReachableFloatStatementUse
  assertionMessages : Multiset ReachableAssertionMessageUse

def ReachedUses.totals (self : ReachedUses) : UseTotals :=
  ⟨self.reachableCrossModuleFunctions, self.reachableModulePrivateFunctions,
    self.reachableGeneratedFunctions, self.reachableExternalFunctions,
    self.reachableExternalCalls, self.reachableMapUses, self.reachableResourceUses,
    self.reachableSiteRootUses, self.reachableRuntimeCasts, self.reachableNumericOps,
    self.reachableLoopStepFailures, self.reachableFloatStatements,
    self.reachableAssertionMessages⟩

def UseTotals.add (self : UseTotals) (direct : RuntimeUses) : UseTotals :=
  ⟨self.crossModuleFunctions ∪ direct.directCrossModuleCalls.toFinset,
    self.modulePrivateFunctions ∪ direct.directModulePrivateCalls.toFinset,
    self.generatedFunctions ∪ direct.directGeneratedCalls.toFinset,
    self.externalFunctions ∪ direct.reachableExternalFunctions,
    self.externalCalls + direct.reachableExternalCalls, self.mapUses + direct.reachableMapUses,
    self.resourceUses + direct.reachableResourceUses,
    self.siteRootUses + direct.reachableSiteRootUses,
    self.runtimeCasts + direct.reachableRuntimeCasts,
    self.numericOps + direct.reachableNumericOps,
    self.loopStepFailures + direct.reachableLoopStepFailures,
    self.floatStatements + direct.reachableFloatStatements,
    self.assertionMessages + direct.reachableAssertionMessages⟩

theorem ReachedUses.totals_merge (self : ReachedUses) (direct : RuntimeUses) :
    (self.merge direct).totals = self.totals.add direct := rfl

instance : RightCommutative UseTotals.add where
  right_comm self first second := by
    simp only [UseTotals.add, Finset.union_right_comm, add_right_comm]

theorem usesOf_totals {left right : List (FunctionId × HirBlock)} (h : left.Perm right) :
    (usesOf hir side left).totals = (usesOf hir side right).totals := by
  have hfold (directs : List RuntimeUses) :
      (directs.foldl ReachedUses.merge .empty).totals =
        directs.foldl UseTotals.add ReachedUses.empty.totals :=
    (List.foldl_hom ReachedUses.totals ReachedUses.totals_merge).symm
  rw [usesOf, usesOf, hfold, hfold]
  exact (h.map _).foldl_eq _

/-! ## Roots with the same members -/

/-- Results that differ in no more than the order of their reports. -/
structure SameUpToOrder (left right : HirReachability) : Prop where
  functions : left.backendSelection.functions = right.backendSelection.functions
  blocks : left.backendSelection.blocks = right.backendSelection.blocks
  blocksByFunction :
    left.backendSelection.blocksByFunction.Perm right.backendSelection.blocksByFunction
  provenance : left.reachableFunctionProvenance = right.reachableFunctionProvenance
  projectContext :
    left.firstProjectContextFunction.isSome = right.firstProjectContextFunction.isSome
  uses : left.uses.totals = right.uses.totals

theorem reachedFrom_congr (h : ∀ f, f ∈ roots ↔ f ∈ roots') (f : FunctionId) :
    hir.ReachedFrom roots f ↔ hir.ReachedFrom roots' f :=
  exists_congr fun root => and_congr_left fun _ => h root

theorem SelectionExact.row_mem {left right : HirBackendSelection} (hvalid : hir.Validated side)
    (hleft : SelectionExact hir roots left) (hright : SelectionExact hir roots' right)
    (h : ∀ f, f ∈ roots ↔ f ∈ roots') {row : HirSelectedFunctionBlocks}
    (hrow : row ∈ left.blocksByFunction) : row ∈ right.blocksByFunction := by
  obtain ⟨function, hfunction, hid, hascending, hmem⟩ := hleft.rows row hrow
  have hreached := (reachedFrom_congr h _).1
    ((hleft.listed row.functionId).1 (List.mem_map_of_mem hrow))
  obtain ⟨other, hother, hsame⟩ := List.mem_map.1 ((hright.listed _).2 hreached)
  obtain ⟨owner, howner, hid', hascending', hmem'⟩ := hright.rows other hother
  cases function_eq_of_id hvalid hfunction howner (hid.trans (hsame.symm.trans hid'.symm))
  have hblocks : other.blocks = row.blocks :=
    ascending_ext hascending' hascending fun b => (hmem' b).trans (hmem b).symm
  have heq : other = row := by
    obtain ⟨f, blocks⟩ := row
    obtain ⟨f', blocks'⟩ := other
    cases hsame
    cases hblocks
    rfl
  exact heq ▸ hother

theorem ReachabilityExact.sameUpToOrder {left right : HirReachability}
    (hvalid : hir.Validated side) (hleft : ReachabilityExact hir side roots left)
    (hright : ReachabilityExact hir side roots' right) (h : ∀ f, f ∈ roots ↔ f ∈ roots') :
    SameUpToOrder left right := by
  have hreach (f : FunctionId) : hir.ReachedFrom roots f ↔ hir.ReachedFrom roots' f :=
    reachedFrom_congr h f
  have hlisted (f : FunctionId) : f ∈ left.backendSelection.blocksByFunction.map
      HirSelectedFunctionBlocks.functionId ↔ f ∈ right.backendSelection.blocksByFunction.map
        HirSelectedFunctionBlocks.functionId := by
    rw [hleft.selection.listed, hright.selection.listed, hreach]
  refine ⟨?_, ?_, ?_, ?_, ?_, ?_⟩
  · ext f
    rw [hleft.selection.functions, hright.selection.functions, hreach]
  · ext b
    rw [hleft.selection.blocks, hright.selection.blocks]
    exact exists_congr fun function => and_congr_right fun _ => and_congr_left fun _ => hreach _
  · refine (List.perm_ext_iff_of_nodup hleft.selection.nodup.of_map
      hright.selection.nodup.of_map).2 fun row => ⟨fun hrow => ?_, fun hrow => ?_⟩
    · exact hleft.selection.row_mem hvalid hright.selection h hrow
    · exact hright.selection.row_mem hvalid hleft.selection (fun f => (h f).symm) hrow
  · ext member
    rw [hleft.provenance, hright.provenance]
    exact exists_congr fun f => and_congr_left fun _ => hreach f
  · rw [hleft.projectContext, hright.projectContext, Bool.eq_iff_iff, List.findSome?_isSome_iff,
      List.findSome?_isSome_iff]
    exact exists_congr fun f => and_congr_left fun _ => hlisted f
  · obtain ⟨selected, hnodup, hmem, huses⟩ := hleft.uses
    obtain ⟨selected', hnodup', hmem', huses'⟩ := hright.uses
    rw [huses, huses']
    refine usesOf_totals ((List.perm_ext_iff_of_nodup hnodup.of_map hnodup'.of_map).2 ?_)
    rintro ⟨f, block⟩
    rw [hmem, hmem']
    refine exists_congr fun function => and_congr_right fun _ => and_congr_right fun _ => ?_
    exact and_congr_left fun _ => hreach f

/-! ## Roots that the module does not have -/

theorem drainFunctions_unknown (hfacts : ModuleFacts hir side facts) {functions : List FunctionId}
    (hvisited : ∀ f ∈ state.visitedFunctions, f ∈ hir.functions.map HirFunction.id)
    (hunknown : ∃ f ∈ functions, f ∉ hir.functions.map HirFunction.id) :
    ∃ error, drainFunctions facts functions state = .error error := by
  induction functions generalizing state with
  | nil =>
      obtain ⟨_, hin, _⟩ := hunknown
      exact absurd hin List.not_mem_nil
  | cons f rest ih =>
      rw [drainFunctions, visitFunction]
      by_cases hknown : f ∈ hir.functions.map HirFunction.id
      · obtain ⟨other, hother, hout⟩ := hunknown
        have hrest : ∃ other ∈ rest, other ∉ hir.functions.map HirFunction.id := by
          refine ⟨other, (List.mem_cons.1 hother).resolve_left ?_, hout⟩
          rintro rfl
          exact hout hknown
        by_cases hseen : f ∈ state.visitedFunctions
        · rw [if_pos hseen, ok_bind]
          exact ih hvisited hrest
        · obtain ⟨function, hfunction, rfl⟩ := List.mem_map.1 hknown
          have hrow : facts.factsFor function.id = some (function.linkFacts side) :=
            hfacts.factsFor_iff.2 ⟨(hfacts.functions _).2 ⟨function, hfunction, rfl⟩, rfl⟩
          simp only [if_neg hseen, hrow, ok_bind]
          refine ih (fun other hin => ?_) hrest
          rcases Finset.mem_insert.1 hin with rfl | hin
          · exact hknown
          · exact hvisited other hin
      · have hrow : facts.factsFor f = none := by
          refine Option.eq_none_iff_forall_ne_some.2 fun row hrow => ?_
          obtain ⟨hmem, rfl⟩ := hfacts.factsFor_iff.1 hrow
          obtain ⟨function, hfunction, rfl⟩ := (hfacts.functions row).1 hmem
          exact hknown (List.mem_map_of_mem hfunction)
        rw [if_neg fun hin => hknown (hvisited f hin)]
        simp only [hrow]
        exact ⟨_, rfl⟩

theorem collectReachability_unknown (hfacts : ModuleFacts hir side facts)
    (hunknown : ∃ root ∈ roots, root ∉ hir.functions.map HirFunction.id) :
    ∃ error, collectReachabilityFromFunctionLinkFacts facts roots = some (.error error) := by
  obtain ⟨error, herror⟩ : ∃ error, drainFunctions facts (UnionState.start roots).functionWorklist
      { UnionState.start roots with functionWorklist := [] } = .error error :=
    drainFunctions_unknown hfacts (fun f hin => absurd hin (Finset.notMem_empty f)) hunknown
  have hwork : ¬((UnionState.start roots).functionWorklist.isEmpty &&
      (UnionState.start roots).blockWorklist.isEmpty) = true := by
    obtain ⟨root, hroot, -⟩ := hunknown
    rw [Bool.and_eq_true, List.isEmpty_iff]
    rintro ⟨hnil, -⟩
    exact List.ne_nil_of_mem hroot hnil
  refine ⟨error, ?_⟩
  rw [collectReachabilityFromFunctionLinkFacts, HirModuleLinkFacts.unionFuel, drainBoth,
    if_neg hwork]
  simp only [herror]
  rfl

/-! ## The result for every list of roots -/

theorem collectReachability_exact (hvalid : hir.Validated side)
    (hfacts : ModuleFacts hir side facts) (hdisjoint : hir.DisjointFlow)
    (hroots : ∀ root ∈ roots, root ∈ hir.functions.map HirFunction.id) :
    ∃ result, collectReachabilityFromFunctionLinkFacts facts roots = some (.ok result) ∧
      ReachabilityExact hir side roots result := by
  obtain ⟨state, seen, hrun, hempty, h⟩ :=
    collectReachability_unites hvalid hfacts hdisjoint hroots
  exact ⟨_, hrun, h.reachabilityExact hvalid hfacts hdisjoint hempty⟩

/-- For every list of the module's functions the union is exact, passes validation, and up to
order depends on the members of the list alone; other lists are refused. -/
theorem reachability_exact_up_to_order (hvalid : hir.Validated side)
    (hdisjoint : hir.DisjointFlow) :
    ∃ facts, collectModuleFunctionLinkFacts hir side = some (.ok facts) ∧
      (∀ roots, (∀ root ∈ roots, root ∈ hir.functions.map HirFunction.id) →
        ∃ result, collectReachabilityFromFunctionLinkFacts facts roots = some (.ok result) ∧
          ReachabilityExact hir side roots result ∧
          result.backendSelection.validateForHir hir = .ok () ∧
          ∀ roots', (∀ f, f ∈ roots' ↔ f ∈ roots) → ∃ result',
            collectReachabilityFromFunctionLinkFacts facts roots' = some (.ok result') ∧
              SameUpToOrder result' result) ∧
      ∀ roots, (∃ root ∈ roots, root ∉ hir.functions.map HirFunction.id) →
        ∃ error, collectReachabilityFromFunctionLinkFacts facts roots = some (.error error) := by
  obtain ⟨facts, hcollect, hfacts⟩ := collectModuleFunctionLinkFacts_exact hvalid hdisjoint
  refine ⟨facts, hcollect, fun roots hroots => ?_,
    fun roots hunknown => collectReachability_unknown hfacts hunknown⟩
  obtain ⟨result, hrun, hexact⟩ := collectReachability_exact hvalid hfacts hdisjoint hroots
  refine ⟨result, hrun, hexact, hexact.selection.validateForHir hvalid hdisjoint hroots,
    fun roots' hsame => ?_⟩
  obtain ⟨result', hrun', hexact'⟩ := collectReachability_exact hvalid hfacts hdisjoint
    fun root hroot => hroots root ((hsame root).1 hroot)
  exact ⟨result', hrun', hexact'.sameUpToOrder hvalid hexact hsame⟩

/-! ## Two functions of one project context -/

theorem contextExpression_rank (_ : HirValueId) :
    ∀ child ∈ (HirExpressionKind.Bool true).childValues, 0 < (0 : Nat) :=
  fun _ hchild => absurd hchild List.not_mem_nil

/-- The first function jumps to a block that calls the second. -/
def contextModule : HirModule where
  expressions := ⟨fun _ => ⟨.Bool true, ⟨0⟩, .RValue⟩, fun _ => 0, contextExpression_rank⟩
  blocks := [⟨⟨0⟩, ⟨0⟩, [], [], .Jump ⟨2⟩ []⟩, ⟨⟨1⟩, ⟨0⟩, [], [], .Return []⟩,
    ⟨⟨2⟩, ⟨0⟩, [], [⟨⟨0⟩, .Call (.Local ⟨1⟩) [] []⟩], .Return []⟩]
  functions := [⟨⟨0⟩, ⟨0⟩, [], [], none⟩, ⟨⟨1⟩, ⟨1⟩, [], [], none⟩]
  regions := [⟨⟨0⟩, none⟩]
  localOriginKind := fun _ => none

/-- Every function has the provenance of one member of a project context. -/
def contextFacts : HirSideFacts where
  functionProvenance _ := some {⟨.ProjectContext, "config", "release"⟩}
  functionSpan _ := none
  statementSpan _ := none
  invokeSpan _ := none
  terminatorSpan _ := none
  expressionSpan _ := none
  stringPieces _ := []
  messageEvaluation _ := .Default

theorem contextModule_validated : contextModule.Validated contextFacts := by
  refine ⟨?_, ?_, fun _ _ => rfl, ?_, ?_, ?_, ?_⟩ <;> decide

theorem contextModule_edge {b c : BlockId} (h : contextModule.flowGraph.Edge b c) :
    b = ⟨0⟩ ∧ c = ⟨2⟩ := by
  obtain ⟨next, hnext, hin⟩ := h
  obtain ⟨block, hblock, rfl⟩ := Option.map_eq_some_iff.1 hnext
  have hall : ∀ block ∈ contextModule.blocks, ∀ c ∈ block.terminator.targets,
      block.id = ⟨0⟩ ∧ c = ⟨2⟩ := by decide
  obtain ⟨hid, rfl⟩ := hall block (HirModule.blockById_mem hblock) c hin
  exact ⟨(HirModule.blockById_id hblock).symm.trans hid, rfl⟩

theorem contextModule_reaches {entry b : BlockId} (h : contextModule.Reaches entry b) :
    entry = ⟨1⟩ ↔ b = ⟨1⟩ := by
  induction h with
  | refl => exact Iff.rfl
  | tail _ hedge ih =>
      obtain ⟨rfl, rfl⟩ := contextModule_edge hedge
      exact ih.trans (iff_of_false (by decide) (by decide))

theorem contextModule_disjoint : contextModule.DisjointFlow := by
  intro function hfunction other hother b hreach hreach'
  have hsame := (contextModule_reaches hreach).trans (contextModule_reaches hreach').symm
  have hall : ∀ function ∈ contextModule.functions, ∀ other ∈ contextModule.functions,
      (function.entry = ⟨1⟩ ↔ other.entry = ⟨1⟩) → function = other := by decide
  exact hall function hfunction other hother hsame

theorem contextModule_calls : contextModule.Calls ⟨0⟩ ⟨1⟩ :=
  ⟨⟨⟨0⟩, ⟨0⟩, [], [], none⟩, List.mem_cons_self, rfl,
    ⟨⟨2⟩, ⟨0⟩, [], [⟨⟨0⟩, .Call (.Local ⟨1⟩) [] []⟩], .Return []⟩,
    .single ⟨_, rfl, List.mem_singleton_self _⟩, rfl, by decide⟩

theorem reachability_exact_up_to_order_context :
    ∃ facts, collectModuleFunctionLinkFacts contextModule contextFacts = some (.ok facts) ∧
      ∃ result, collectReachabilityFromFunctionLinkFacts facts [⟨0⟩] = some (.ok result) ∧
        ReachabilityExact contextModule contextFacts [⟨0⟩] result ∧
        ⟨1⟩ ∈ result.backendSelection.functions ∧ ⟨2⟩ ∈ result.backendSelection.blocks ∧
        result.backendSelection.validateForHir contextModule = .ok () := by
  obtain ⟨facts, hcollect, hall, -⟩ :=
    reachability_exact_up_to_order contextModule_validated contextModule_disjoint
  obtain ⟨result, hrun, hexact, hvalid, -⟩ := hall [⟨0⟩] (by decide)
  refine ⟨facts, hcollect, result, hrun, hexact, ?_, ?_, hvalid⟩
  · exact (hexact.selection.functions ⟨1⟩).2
      ⟨⟨0⟩, List.mem_singleton_self _, .single contextModule_calls⟩
  · exact (hexact.selection.blocks ⟨2⟩).2 ⟨⟨⟨0⟩, ⟨0⟩, [], [], none⟩, List.mem_cons_self,
      ⟨⟨0⟩, List.mem_singleton_self _, .refl⟩, .single ⟨_, rfl, List.mem_singleton_self _⟩⟩

theorem ReachabilityExact.first_root {result : HirReachability} {root : FunctionId}
    {rest : List FunctionId} (h : ReachabilityExact hir side (root :: rest) result)
    {found : ReachableProjectContextFunction}
    (hroot : side.projectContextFunction root = some found) :
    result.firstProjectContextFunction = some found := by
  obtain ⟨others, hids⟩ := h.rootsFirst
  rw [List.eraseDups_cons] at hids
  rw [h.projectContext, ← hids, List.cons_append, List.findSome?_cons, hroot]

/-- The two orders of its roots give a module two results. -/
theorem reachability_depends_on_root_order :
    ¬∀ (hir : HirModule) (side : HirSideFacts) (facts : HirModuleLinkFacts),
      hir.Validated side → hir.DisjointFlow →
      collectModuleFunctionLinkFacts hir side = some (.ok facts) →
      ∀ roots roots' : List FunctionId, roots.Perm roots' →
        (∀ root ∈ roots, root ∈ hir.functions.map HirFunction.id) →
        collectReachabilityFromFunctionLinkFacts facts roots =
          collectReachabilityFromFunctionLinkFacts facts roots' := by
  intro hall
  obtain ⟨facts, hcollect, hfacts⟩ :=
    collectModuleFunctionLinkFacts_exact contextModule_validated contextModule_disjoint
  have hboth : ∀ roots : List FunctionId, (∀ root ∈ roots,
      root ∈ contextModule.functions.map HirFunction.id) → ∃ result,
        collectReachabilityFromFunctionLinkFacts facts roots = some (.ok result) ∧
          ReachabilityExact contextModule contextFacts roots result := fun roots hroots =>
    collectReachability_exact contextModule_validated hfacts contextModule_disjoint hroots
  obtain ⟨result, hrun, hexact⟩ := hboth [⟨0⟩, ⟨1⟩] (by decide)
  obtain ⟨result', hrun', hexact'⟩ := hboth [⟨1⟩, ⟨0⟩] (by decide)
  have hsame := hall contextModule contextFacts facts contextModule_validated
    contextModule_disjoint hcollect [⟨0⟩, ⟨1⟩] [⟨1⟩, ⟨0⟩] (List.Perm.swap _ _ _) (by decide)
  rw [hrun, hrun'] at hsame
  cases hsame
  have hclass : containsClass {⟨.ProjectContext, "config", "release"⟩} .ProjectContext = true := by
    decide
  have hfound (f : FunctionId) : contextFacts.projectContextFunction f =
      some ⟨f, {⟨.ProjectContext, "config", "release"⟩}, none⟩ := by
    rw [HirSideFacts.projectContextFunction]
    exact if_pos hclass
  have hfirst := hexact.first_root (hfound ⟨0⟩)
  rw [hexact'.first_root (hfound ⟨1⟩)] at hfirst
  cases hfirst

end Moth.Hir
