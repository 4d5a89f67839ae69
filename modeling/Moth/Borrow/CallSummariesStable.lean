import Moth.Borrow.MutationRounds
import Moth.Borrow.ReturnAliasRounds

/-!
# Call summaries always settle

What seeding leaves when it succeeds, and the two settling loops put together:
neither runs out of rounds, what they leave is characterised, and neither
depends on the order of the functions.
-/

namespace Moth.Borrow

open Moth.Hir Moth.Lib

/-! ## Seeds -/

section Seeds

variable {hir : HirModule}

/-- What a function that can be seeded starts with. -/
def functionSeed (hir : HirModule) (function : HirFunction) : PublicCallSummary where
  parameters := function.params.map fun param =>
    parameterSeed ((localMutability hir param).getD false)
  returnAlias := .Fresh
  escapesBuiltinFailure := false

theorem seedParameters_ok_iff {function : FunctionId} {params parameterLocals owners : List LocalId}
    {parameters : List PublicCallParameterSummary} :
    seedParameters hir function params parameterLocals owners = .ok parameters ↔
      params.Nodup ∧ (∀ param ∈ params, param ∉ parameterLocals ∧ param ∉ owners ∧
        (localMutability hir param).isSome) ∧
      parameters = params.map fun param =>
        parameterSeed ((localMutability hir param).getD false) := by
  induction params generalizing parameterLocals owners parameters with
  | nil =>
      rw [seedParameters]
      constructor
      · intro h
        cases h
        exact ⟨List.nodup_nil, fun _ hmem => absurd hmem List.not_mem_nil, rfl⟩
      · intro h
        rw [h.2.2]
        rfl
  | cons param rest ih =>
      rw [seedParameters]
      by_cases hseen : param ∈ parameterLocals
      · rw [if_pos hseen]
        refine ⟨fun h => (nomatch h), fun h => absurd hseen (h.2.1 param List.mem_cons_self).1⟩
      · rw [if_neg hseen]
        by_cases howned : param ∈ owners
        · rw [if_pos howned]
          refine ⟨fun h => (nomatch h), fun h => absurd howned (h.2.1 param List.mem_cons_self).2.1⟩
        · rw [if_neg howned]
          cases hmutable : localMutability hir param with
          | none =>
              refine ⟨fun h => (nomatch h), fun h => ?_⟩
              have hsome := (h.2.1 param List.mem_cons_self).2.2
              rw [hmutable] at hsome
              cases hsome
          | some isMutable =>
              simp only
              rw [List.nodup_cons, List.forall_mem_cons, List.map_cons, hmutable]
              cases hrest : seedParameters hir function rest (parameterLocals ++ [param])
                  (owners ++ [param]) with
              | error e =>
                  refine ⟨fun h => (nomatch h), fun h => ?_⟩
                  obtain ⟨⟨hnot, hnodup⟩, ⟨-, hall⟩, -⟩ := h
                  have hlater : ∀ other ∈ rest, other ∉ parameterLocals ++ [param] ∧
                      other ∉ owners ++ [param] ∧ (localMutability hir other).isSome := by
                    intro other hother
                    obtain ⟨h1, h2, h3⟩ := hall other hother
                    have hne : other ≠ param := fun heq => hnot (heq ▸ hother)
                    simp [h1, h2, h3, hne]
                  have hok := ih.2 ⟨hnodup, hlater, rfl⟩
                  rw [hrest] at hok
                  cases hok
              | ok later =>
                  obtain ⟨hnodup, hall, hlater⟩ := ih.1 hrest
                  simp only [Except.ok.injEq]
                  constructor
                  · intro h
                    refine ⟨⟨fun hin => ?_, hnodup⟩, ⟨⟨hseen, howned, by simp⟩, ?_⟩, ?_⟩
                    · exact (hall param hin).1 (by simp)
                    · intro other hother
                      obtain ⟨h1, h2, h3⟩ := hall other hother
                      simp only [List.mem_append, not_or] at h1 h2
                      exact ⟨h1.1, h2.1, h3⟩
                    · rw [← h, hlater]
                      rfl
                  · intro h
                    rw [h.2.2, hlater]
                    rfl

/-- The module's functions and parameters are distinct, and its parameters are declared. -/
structure Seedable (hir : HirModule) (functions : List HirFunction) (functionIds : List FunctionId)
    (owners : List LocalId) : Prop where
  ids : (functions.map fun function => function.id).Nodup
  freshIds : ∀ function ∈ functions, function.id ∉ functionIds
  params : (functions.flatMap fun function => function.params).Nodup
  freshParams : ∀ param ∈ functions.flatMap (fun function => function.params), param ∉ owners
  declared : ∀ param ∈ functions.flatMap (fun function => function.params),
    (localMutability hir param).isSome

/-- The seed after some functions. -/
structure SeededFrom (hir : HirModule) (functions : List HirFunction)
    (seed final : CallSummarySeed) : Prop where
  seeded : ∀ function ∈ functions, final.summaries function.id = some (functionSeed hir function)
  others : ∀ id, id ∉ functions.map (fun function => function.id) →
    final.summaries id = seed.summaries id
  functionIds : final.functionIds = seed.functionIds ++ functions.map fun function => function.id

theorem seedFunction_ok_iff {seed next : CallSummarySeed} {function : HirFunction} :
    seedFunction hir seed function = .ok next ↔
      function.id ∉ seed.functionIds ∧ function.params.Nodup ∧
      (∀ param ∈ function.params, param ∉ seed.parameterOwnerLocals ∧
        (localMutability hir param).isSome) ∧
      next = ⟨Function.update seed.summaries function.id (some (functionSeed hir function)),
        seed.functionIds ++ [function.id], seed.parameterOwnerLocals ++ function.params⟩ := by
  rw [seedFunction]
  by_cases hin : function.id ∈ seed.functionIds
  · rw [if_pos hin]
    exact ⟨fun h => (nomatch h), fun h => absurd hin h.1⟩
  · rw [if_neg hin]
    cases hparams : seedParameters hir function.id function.params []
        seed.parameterOwnerLocals with
    | error e =>
        refine ⟨fun h => (nomatch h), fun h => ?_⟩
        have hok : seedParameters hir function.id function.params [] seed.parameterOwnerLocals =
            .ok (functionSeed hir function).parameters :=
          seedParameters_ok_iff.2
            ⟨h.2.1, fun param hparam => ⟨List.not_mem_nil, h.2.2.1 param hparam⟩, rfl⟩
        rw [hparams] at hok
        cases hok
    | ok parameters =>
        obtain ⟨hnodup, hall, hparameters⟩ := seedParameters_ok_iff.1 hparams
        simp only [Except.ok.injEq]
        rw [hparameters]
        constructor
        · intro h
          exact ⟨hin, hnodup, fun param hparam => (hall param hparam).2, h.symm⟩
        · intro h
          rw [h.2.2.2]
          rfl

theorem foldlM_seedFunction_ok {functions : List HirFunction} {seed final : CallSummarySeed}
    (h : functions.foldlM (seedFunction hir) seed = .ok final) :
    Seedable hir functions seed.functionIds seed.parameterOwnerLocals ∧
      SeededFrom hir functions seed final := by
  induction functions generalizing seed with
  | nil =>
      cases h
      refine ⟨⟨List.nodup_nil, ?_, List.nodup_nil, ?_, ?_⟩, ?_, fun _ _ => rfl, ?_⟩
      · exact fun _ hmem => absurd hmem List.not_mem_nil
      · exact fun _ hmem => absurd hmem List.not_mem_nil
      · exact fun _ hmem => absurd hmem List.not_mem_nil
      · exact fun _ hmem => absurd hmem List.not_mem_nil
      · exact (List.append_nil _).symm
  | cons function rest ih =>
      rw [List.foldlM_cons] at h
      obtain ⟨next, hnext, hrest⟩ := bind_eq_ok.1 h
      obtain ⟨hnew, hnodup, hparams, heq⟩ := seedFunction_ok_iff.1 hnext
      obtain ⟨hable, hseeded⟩ := ih hrest
      rw [heq] at hable hseeded
      have hout : function.id ∉ rest.map fun function => function.id := by
        intro hin
        obtain ⟨other, hother, hid⟩ := List.mem_map.1 hin
        exact hable.freshIds other hother (by simp [hid])
      refine ⟨⟨?_, ?_, ?_, ?_, ?_⟩, ?_, ?_, ?_⟩
      · rw [List.map_cons, List.nodup_cons]
        exact ⟨hout, hable.ids⟩
      · intro other hother
        cases List.mem_cons.1 hother with
        | inl hsame =>
            rw [hsame]
            exact hnew
        | inr hin =>
            have hfresh := hable.freshIds other hin
            simp only [List.mem_append, not_or] at hfresh
            exact hfresh.1
      · rw [List.flatMap_cons, List.nodup_append]
        refine ⟨hnodup, hable.params, fun param hparam other hother hsame => ?_⟩
        subst hsame
        exact hable.freshParams param hother (List.mem_append_right _ hparam)
      · intro param hparam
        rw [List.flatMap_cons, List.mem_append] at hparam
        cases hparam with
        | inl hfirst => exact (hparams param hfirst).1
        | inr hlater =>
            exact fun hin => hable.freshParams param hlater (List.mem_append_left _ hin)
      · intro param hparam
        rw [List.flatMap_cons, List.mem_append] at hparam
        cases hparam with
        | inl hfirst => exact (hparams param hfirst).2
        | inr hlater => exact hable.declared param hlater
      · intro other hother
        cases List.mem_cons.1 hother with
        | inl hsame =>
            rw [hsame, hseeded.others _ hout]
            exact Function.update_self ..
        | inr hin => exact hseeded.seeded other hin
      · intro id hid
        rw [List.map_cons, List.mem_cons, not_or] at hid
        rw [hseeded.others id hid.2]
        exact Function.update_of_ne hid.1 ..
      · rw [hseeded.functionIds, List.append_assoc]
        rfl

theorem foldlM_seedFunction_of {functions : List HirFunction} {seed : CallSummarySeed}
    (h : Seedable hir functions seed.functionIds seed.parameterOwnerLocals) :
    ∃ final, functions.foldlM (seedFunction hir) seed = .ok final := by
  induction functions generalizing seed with
  | nil => exact ⟨seed, rfl⟩
  | cons function rest ih =>
      obtain ⟨hids, hfreshIds, hparams, hfreshParams, hdeclared⟩ := h
      rw [List.map_cons, List.nodup_cons] at hids
      rw [List.flatMap_cons, List.nodup_append] at hparams
      simp only [List.flatMap_cons, List.mem_append] at hfreshParams hdeclared
      have hnext : seedFunction hir seed function = .ok _ := seedFunction_ok_iff.2
        ⟨hfreshIds function List.mem_cons_self, hparams.1,
          fun param hparam => ⟨hfreshParams param (.inl hparam), hdeclared param (.inl hparam)⟩, rfl⟩
      rw [List.foldlM_cons, hnext, ok_bind]
      refine ih ⟨hids.2, fun other hother hin => ?_, hparams.2.1, fun param hparam hin => ?_,
        fun param hparam => hdeclared param (.inr hparam)⟩
      · cases List.mem_append.1 hin with
        | inl hold => exact hfreshIds other (List.mem_cons_of_mem _ hother) hold
        | inr hsame =>
            rw [List.mem_singleton] at hsame
            exact hids.1 (hsame ▸ List.mem_map_of_mem hother)
      · cases List.mem_append.1 hin with
        | inl hold => exact hfreshParams param (.inr hparam) hold
        | inr hsame => exact hparams.2.2 param hsame param hparam rfl

/-- The errors of seeding. -/
def SeedError (e : CallSummaryError) : Prop :=
  (∃ function, e = .DuplicateFunction function) ∨
    (∃ function position, e = .DuplicateParameter function position) ∨
    (∃ parameter, e = .SharedParameter parameter) ∨
    ∃ function parameter, e = .UnresolvedMutability function parameter

theorem seedParameters_error {function : FunctionId} {params parameterLocals owners : List LocalId}
    {e : CallSummaryError}
    (h : seedParameters hir function params parameterLocals owners = .error e) : SeedError e := by
  induction params generalizing parameterLocals owners with
  | nil => cases h
  | cons param rest ih =>
      rw [seedParameters] at h
      split at h
      · cases h
        exact .inr (.inl ⟨function, _, rfl⟩)
      · split at h
        · cases h
          exact .inr (.inr (.inl ⟨param, rfl⟩))
        · split at h
          · cases h
            exact .inr (.inr (.inr ⟨function, param, rfl⟩))
          · split at h
            · next hrest =>
                cases h
                exact ih hrest
            · cases h

theorem seedSummaries_error {e : CallSummaryError} (h : seedSummaries hir = .error e) :
    SeedError e := by
  obtain ⟨function, -, seed, hseed⟩ := foldlM_error h
  rw [seedFunction] at hseed
  split at hseed
  · cases hseed
    exact .inl ⟨function.id, rfl⟩
  · split at hseed
    · next hparams =>
        cases hseed
        exact seedParameters_error hparams
    · cases hseed

theorem seedSummaries_ok {seed : CallSummarySeed} (h : seedSummaries hir = .ok seed) :
    Seedable hir hir.functions [] [] ∧
      SeededFrom hir hir.functions ⟨fun _ => none, [], []⟩ seed :=
  foldlM_seedFunction_ok h

theorem SeededFrom.hasSummaries {seed start : CallSummarySeed}
    (h : SeededFrom hir hir.functions start seed) : HasSummaries hir seed.summaries := by
  intro function hfunction
  rw [h.seeded function hfunction]
  rfl

end Seeds

/-! ## Building -/

section Build

variable {hir hir' : HirModule} {environment : CallEnvironment} {summaries : SummaryTable}

/-- On a cycle of local calls a result is unknown; elsewhere it is what the classifier makes of
the function in the table itself. -/
structure AliasesSettled (hir : HirModule) (environment : CallEnvironment)
    (summaries : SummaryTable) : Prop where
  cyclic : ∀ function ∈ hir.functions,
    Relation.TransGen (LocalCall hir) function.id function.id →
      aliasOf summaries function.id = some .Unknown
  acyclic : ∀ function ∈ hir.functions,
    ¬ Relation.TransGen (LocalCall hir) function.id function.id →
      ∃ retained, classifyFunctionReturnAlias hir environment summaries function = .ok retained ∧
        aliasOf summaries function.id = some retained

theorem build_parts (h : buildPublicCallSummaries hir environment = .ok summaries) :
    ∃ seed, seedSummaries hir = .ok seed ∧
      stabilizeReturnAliasSummaries hir environment seed.summaries = .ok summaries := by
  rw [buildPublicCallSummaries] at h
  split at h
  · cases h
  · next seed hseed =>
      split at h
      · cases h
      · next table htable =>
          split at h
          · cases h
          · cases h
            exact ⟨seed, hseed, htable⟩

theorem aliasesSettled_of_build (h : buildPublicCallSummaries hir environment = .ok summaries) :
    AliasesSettled hir environment summaries := by
  obtain ⟨seed, hseed, hstable⟩ := build_parts h
  obtain ⟨hable, hseeded⟩ := seedSummaries_ok hseed
  obtain ⟨-, recursive, hrecursive, hsettled⟩ :=
    (stabilizeReturnAliasSummaries_settles hable.ids hseeded.hasSummaries).2 summaries hstable
  refine ⟨fun function hfunction hcycle => ?_, fun function hfunction hacyclic => ?_⟩
  · obtain ⟨retained, hretained, halias⟩ := hsettled function hfunction
    have hin := (mem_recursive_iff hable.ids hrecursive).2
      ⟨List.mem_map_of_mem hfunction, hcycle⟩
    rw [retainedReturnAlias, if_pos hin] at hretained
    cases hretained
    exact halias
  · obtain ⟨retained, hretained, halias⟩ := hsettled function hfunction
    have hout : function.id ∉ recursive := fun hin =>
      hacyclic ((mem_recursive_iff hable.ids hrecursive).1 hin).2
    rw [retainedReturnAlias, if_neg hout] at hretained
    split at hretained
    · cases hretained
    · next classified hclassified =>
        cases hretained
        exact ⟨_, hclassified, halias⟩

theorem build_error {e : CallSummaryError}
    (h : buildPublicCallSummaries hir environment = .error e) : SeedError e ∨ RoundError e := by
  rw [buildPublicCallSummaries] at h
  split at h
  · next hseed =>
      cases h
      exact .inl (seedSummaries_error hseed)
  · next seed hseed =>
      obtain ⟨hable, hseeded⟩ := seedSummaries_ok hseed
      split at h
      · next hstable =>
          cases h
          exact .inr ((stabilizeReturnAliasSummaries_settles hable.ids hseeded.hasSummaries).1 _
            hstable)
      · split at h
        · next hcount =>
            rw [hseeded.functionIds, List.nil_append, List.length_map] at hcount
            exact absurd rfl hcount
        · cases h

theorem build_sameButAliases (h : buildPublicCallSummaries hir environment = .ok summaries) :
    ∃ seed, SeededFrom hir hir.functions ⟨fun _ => none, [], []⟩ seed ∧
      SameButAliases seed.summaries summaries := by
  obtain ⟨seed, hseed, hstable⟩ := build_parts h
  obtain ⟨hable, hseeded⟩ := seedSummaries_ok hseed
  exact ⟨seed, hseeded,
    ((stabilizeReturnAliasSummaries_settles hable.ids hseeded.hasSummaries).2 summaries hstable).1⟩

theorem build_parameters (h : buildPublicCallSummaries hir environment = .ok summaries) :
    (∀ function ∈ hir.functions, ∃ summary, summaries function.id = some summary ∧
      summary.parameters = (functionSeed hir function).parameters) ∧
    ∀ id, id ∉ hir.functions.map (fun function => function.id) → summaries id = none := by
  obtain ⟨seed, hseeded, hsame⟩ := build_sameButAliases h
  refine ⟨fun function hfunction => ?_, fun id hid => ?_⟩
  · have hrow := hsame function.id
    rw [hseeded.seeded function hfunction, Option.map_some, Option.map_eq_some_iff] at hrow
    obtain ⟨summary, hsummary, hclear⟩ := hrow
    refine ⟨summary, hsummary, ?_⟩
    have hparameters := congrArg PublicCallSummary.parameters hclear
    exact hparameters
  · have hrow := hsame id
    rw [hseeded.others id hid, Option.map_none, Option.map_eq_none_iff] at hrow
    exact hrow

theorem build_unmarked (h : buildPublicCallSummaries hir environment = .ok summaries)
    (id : FunctionId) (position : Nat) : ¬ Marked summaries id position := by
  intro hmark
  obtain ⟨summary, parameter, hsummary, hparameter, hwrites⟩ := hmark
  obtain ⟨hfunctions, hothers⟩ := build_parameters h
  by_cases hid : id ∈ hir.functions.map fun function => function.id
  · obtain ⟨function, hfunction, heq⟩ := List.mem_map.1 hid
    obtain ⟨summary', hsummary', hparameters⟩ := hfunctions function hfunction
    rw [heq, hsummary] at hsummary'
    cases hsummary'
    rw [hparameters, functionSeed, List.getElem?_map, Option.map_eq_some_iff] at hparameter
    obtain ⟨param, -, hseed⟩ := hparameter
    rw [← hseed] at hwrites
    cases hwrites
  · rw [hothers id hid] at hsummary
    cases hsummary

theorem build_hasParameter (h : buildPublicCallSummaries hir environment = .ok summaries)
    (function : HirFunction) (hfunction : function ∈ hir.functions) (position : Nat)
    (hposition : position < function.params.length) :
    HasParameter summaries function.id position := by
  obtain ⟨summary, hsummary, hparameters⟩ := (build_parameters h).1 function hfunction
  refine ⟨summary, hsummary, ?_⟩
  rw [hparameters, functionSeed, List.length_map]
  exact hposition

theorem unwritten_le_length (parameters : List PublicCallParameterSummary) :
    unwritten parameters ≤ parameters.length := List.countP_le_length

theorem build_unwritten (h : buildPublicCallSummaries hir environment = .ok summaries) :
    unwrittenParameters hir summaries ≤ parameterCount hir := by
  refine List.sum_le_sum fun function hfunction => ?_
  obtain ⟨summary, hsummary, hparameters⟩ := (build_parameters h).1 function hfunction
  rw [hsummary]
  refine Nat.le_trans (unwritten_le_length summary.parameters) ?_
  rw [hparameters, functionSeed, List.length_map]

theorem AliasesSettled.marks {final : SummaryTable}
    (h : AliasesSettled hir environment summaries) (hsame : SameButMarks summaries final) :
    AliasesSettled hir environment final := by
  have halias : ∀ id, aliasOf final id = aliasOf summaries id := by
    intro id
    have hrow := congrArg (fun row => row.map fun summary => summary.returnAlias) (hsame id)
    simp only [Option.map_map] at hrow
    exact hrow
  refine ⟨fun function hfunction hcycle => ?_, fun function hfunction hacyclic => ?_⟩
  · rw [halias]
    exact h.cyclic function hfunction hcycle
  · have hclassified : classifyFunctionReturnAlias hir environment final function =
        classifyFunctionReturnAlias hir environment summaries function :=
      classifyFunctionReturnAlias_congr fun _ _ callee _ => halias callee
    rw [halias, hclassified]
    exact h.acyclic function hfunction hacyclic

/-! ## Order -/

theorem Reordered.localMutability (h : Reordered hir hir') :
    localMutability hir' = localMutability hir := by
  funext target
  rw [Borrow.localMutability, Borrow.localMutability, h.blocks]

theorem Reordered.seedSummaries (h : Reordered hir hir') {seed : CallSummarySeed}
    (hseed : seedSummaries hir = .ok seed) :
    ∃ seed', seedSummaries hir' = .ok seed' ∧ seed'.summaries = seed.summaries := by
  obtain ⟨hable, hseeded⟩ := seedSummaries_ok hseed
  have hparams := h.functions.flatMap_right fun function => function.params
  have hable' : Seedable hir' hir'.functions [] [] := by
    refine ⟨h.ids hable.ids, fun _ _ => List.not_mem_nil, hparams.nodup_iff.2 hable.params,
      fun _ _ => List.not_mem_nil, fun param hparam => ?_⟩
    rw [h.localMutability]
    exact hable.declared param (hparams.mem_iff.1 hparam)
  obtain ⟨seed', hseed'⟩ : ∃ seed', Borrow.seedSummaries hir' = .ok seed' :=
    foldlM_seedFunction_of hable'
  refine ⟨seed', hseed', funext fun id => ?_⟩
  obtain ⟨-, hseeded'⟩ := foldlM_seedFunction_ok hseed'
  by_cases hid : id ∈ hir.functions.map fun function => function.id
  · obtain ⟨function, hfunction, heq⟩ := List.mem_map.1 hid
    rw [← heq, hseeded.seeded function hfunction,
      hseeded'.seeded function (h.functions.mem_iff.2 hfunction), functionSeed, functionSeed,
      h.localMutability]
  · rw [hseeded.others id hid, hseeded'.others id fun hin => hid ((h.functions.map _).mem_iff.1 hin)]

theorem Reordered.build (h : Reordered hir hir')
    (hbuild : buildPublicCallSummaries hir environment = .ok summaries) :
    buildPublicCallSummaries hir' environment = .ok summaries := by
  obtain ⟨seed, hseed, hstable⟩ := build_parts hbuild
  obtain ⟨hable, hseeded⟩ := seedSummaries_ok hseed
  obtain ⟨seed', hseed', hsame⟩ := h.seedSummaries hseed
  have hstable' := h.stabilize hable.ids hseeded.hasSummaries hstable
  have hcount : seed'.functionIds.length = hir'.functions.length := by
    rw [(seedSummaries_ok hseed').2.functionIds, List.nil_append, List.length_map]
  rw [buildPublicCallSummaries, hseed']
  simp only
  rw [hsame, hstable']
  simp only
  rw [if_neg (not_not_intro hcount)]

theorem Reordered.finalize (h : Reordered hir hir') (facts : BorrowFacts) :
    finalizePublicCallSummaryEffects environment facts hir' =
      finalizePublicCallSummaryEffects environment facts hir := by
  funext function table
  rw [finalizePublicCallSummaryEffects, finalizePublicCallSummaryEffects, h.reachableBlocks]

end Build

theorem toOption_eq_of_ok_iff {ε α : Type} {x y : Except ε α}
    (h : ∀ a, x = .ok a ↔ y = .ok a) : x.toOption = y.toOption := by
  cases hx : x with
  | ok a => rw [(h a).1 hx]
  | error e =>
      cases hy : y with
      | error e' => rfl
      | ok a =>
          rw [(h a).2 hy] at hx
          cases hx

/-- Return aliases and parameter mutation settle within their rounds, into the unknown aliases of
call cycles, the classifier's own values elsewhere and the marks of the mutated parameters, in
whatever order the functions stand. -/
theorem call_summaries_settle (hir : HirModule) (environment : CallEnvironment) :
    (∀ e, buildPublicCallSummaries hir environment = .error e →
      e ≠ .UnstableReturnAlias ∧ e ≠ .DepthExhausted) ∧
    (∀ summaries, buildPublicCallSummaries hir environment = .ok summaries →
      AliasesSettled hir environment summaries ∧
      ∀ facts,
        finalizePublicCallSummaryEffectsToFixedPoint hir environment facts summaries ≠
          .error .UnstableMutation ∧
        ∀ final, finalizePublicCallSummaryEffectsToFixedPoint hir environment facts summaries =
            .ok final →
          AliasesSettled hir environment final ∧
          ∀ function ∈ hir.functions, ∀ position, Marked final function.id position ↔
            MutatedParameter hir environment facts function.id position) ∧
    ∀ functions, functions.Perm hir.functions →
      (buildPublicCallSummaries { hir with functions } environment).toOption =
        (buildPublicCallSummaries hir environment).toOption ∧
      ∀ summaries, buildPublicCallSummaries hir environment = .ok summaries → ∀ facts,
        (finalizePublicCallSummaryEffectsToFixedPoint { hir with functions } environment facts
            summaries).toOption =
          (finalizePublicCallSummaryEffectsToFixedPoint hir environment facts summaries).toOption := by
  refine ⟨fun e he => ?_, fun summaries hbuild => ?_, fun functions hperm => ?_⟩
  · rcases build_error he with hseed | hblock | hprojection
    · rcases hseed with ⟨_, rfl⟩ | ⟨_, _, rfl⟩ | ⟨_, rfl⟩ | ⟨_, _, rfl⟩ <;>
        exact ⟨CallSummaryError.noConfusion, CallSummaryError.noConfusion⟩
    · obtain ⟨function, rfl⟩ := hblock
      exact ⟨CallSummaryError.noConfusion, CallSummaryError.noConfusion⟩
    · rcases hprojection with ⟨_, rfl⟩ | ⟨_, _, rfl⟩ <;>
        exact ⟨CallSummaryError.noConfusion, CallSummaryError.noConfusion⟩
  · refine ⟨aliasesSettled_of_build hbuild, fun facts => ⟨?_, fun final hfinal => ?_⟩⟩
    · exact finalizePasses_ne_unstable (Nat.lt_succ_of_le (build_unwritten hbuild))
    · obtain ⟨hsame, hmarks⟩ := finalizePasses_marks (build_unmarked hbuild)
        (build_hasParameter hbuild) hfinal
      exact ⟨(aliasesSettled_of_build hbuild).marks hsame, fun function _ position =>
        hmarks function.id position⟩
  · have hreordered : Reordered hir { hir with functions } := ⟨rfl, rfl, hperm⟩
    refine ⟨toOption_eq_of_ok_iff fun summaries => ⟨hreordered.symm.build, hreordered.build⟩,
      fun summaries hbuild facts => ?_⟩
    have hbuild' := hreordered.build hbuild
    rw [finalizePublicCallSummaryEffectsToFixedPoint, finalizePublicCallSummaryEffectsToFixedPoint,
      hreordered.finalize facts]
    refine (finalize_advancing hir environment facts).rounds_order (fun _ => hperm.mem_iff) ?_
      (finalizePasses_ne_unstable (Nat.lt_succ_of_le (build_unwritten hbuild)))
    rw [← hreordered.finalize facts]
    exact finalizePasses_ne_unstable (Nat.lt_succ_of_le (build_unwritten hbuild'))

end Moth.Borrow
