import Moth.Borrow.CallSummaries
import Moth.Lib.Result

/-!
# What the return classifier depends on

The classifier always has the depth it needs, it fails only where a callee's
summary is missing or names an argument that the call does not have, and it
reads a summary table at no more than the alias summaries of the functions
that the reachable blocks call.
-/

namespace Moth.Borrow

open Moth.Hir Moth.Lib

/-- The errors that a callee's summary can cause. -/
def ProjectionError (e : CallSummaryError) : Prop :=
  (∃ target, e = .MissingSummary target) ∨ ∃ index count, e = .AliasArgumentOutOfRange index count

section Errors

variable {store : HirExpressionStore} {environment : CallEnvironment} {summaries : SummaryTable}
  {params : List LocalId} {blocks : List HirBlock} {classifyLocal : LocalId → Classified}

theorem classifyReturnExpression_error
    (hlocal : ∀ target e, classifyLocal target = .error e → ProjectionError e)
    {value : HirValueId} {e : CallSummaryError}
    (h : classifyReturnExpression store params classifyLocal value = .error e) :
    ProjectionError e := by
  rw [classifyReturnExpression] at h
  split at h
  · split at h
    · cases h
    · exact hlocal _ e h
  · cases h

theorem projectArguments_error
    (hlocal : ∀ target e, classifyLocal target = .error e → ProjectionError e)
    {args : List HirValueId} {indices gathered : List Nat} {e : CallSummaryError}
    (h : projectArguments store params classifyLocal args indices gathered = .error e) :
    ProjectionError e := by
  induction indices generalizing gathered with
  | nil => cases h
  | cons index rest ih =>
      rw [projectArguments] at h
      split at h
      · cases h
        exact .inr ⟨index, args.length, rfl⟩
      · split at h
        · next hfail =>
            cases h
            exact classifyReturnExpression_error hlocal hfail
        · exact ih h
        · exact ih h
        · cases h

theorem calleeReturnAlias_error {target : CallTarget} {e : CallSummaryError}
    (h : calleeReturnAlias environment summaries target = .error e) : ProjectionError e := by
  rw [calleeReturnAlias.eq_def] at h
  simp only at h
  split at h
  · cases h
  · cases h
    exact .inl ⟨target, rfl⟩

theorem classifyWriter_error
    (hlocal : ∀ target e, classifyLocal target = .error e → ProjectionError e)
    {writer : AliasWriter} {e : CallSummaryError}
    (h : classifyWriter store environment summaries params classifyLocal writer = .error e) :
    ProjectionError e := by
  cases writer with
  | Expression value => exact classifyReturnExpression_error hlocal h
  | CallResult target args =>
      rw [classifyWriter, classifyCallResult] at h
      split at h
      · next hfail =>
          cases h
          exact calleeReturnAlias_error hfail
      · next returnAlias _ =>
          cases returnAlias with
          | Fresh => cases h
          | Unknown => cases h
          | AliasParams indices => exact projectArguments_error hlocal h
  | MapResult op receiver =>
      rw [classifyWriter, classifyMapResult] at h
      split at h
      · exact classifyReturnExpression_error hlocal h
      · cases h
  | Computed => cases h
  | Transport source =>
      rw [classifyWriter] at h
      split at h
      · cases h
      · exact hlocal source e h

/-! ## Depth -/

theorem statementWriter_written {target : LocalId} {statement : HirStatement}
    {writer : AliasWriter} (h : statementWriter target statement = some writer) :
    target ∈ collectStatementWrittenLocals statement := by
  rw [statementWriter] at h
  rw [collectStatementWrittenLocals]
  cases hkind : statement.kind with
  | Write written value =>
      rw [hkind] at h
      cases written with
      | DefineLocal defined => simp_all [wholeWriteLocal]
      | AssignPlace place => simp_all [wholeWriteLocal]
  | Call callee args results =>
      rw [hkind] at h
      simp only [Option.ite_none_right_eq_some, List.any_eq_true, decide_eq_true_eq] at h
      obtain ⟨⟨result, hmem, heq⟩, -⟩ := h
      exact List.mem_map.2 ⟨result, hmem, heq⟩
  | MapOp op receiver args result =>
      rw [hkind] at h
      cases result with
      | none => cases h
      | some result => simp_all
  | NumericOp op mode operands result => simp_all
  | LoopStepFailure cause mode result => simp_all
  | FormatFloat source mode result => simp_all
  | ValidateFloat source mode result => simp_all
  | RangeCandidate current step last inclusive domain candidateResult inRangeResult =>
      rw [hkind] at h
      simp only [Option.ite_none_right_eq_some] at h
      rw [List.mem_cons, List.mem_singleton, eq_comm, eq_comm (a := target)]
      exact h.1
  | Expr value =>
      rw [hkind] at h
      cases h
  | PushRuntimeFragment vec value =>
      rw [hkind] at h
      cases h

theorem mem_aliasWrittenLocals {target : LocalId} {writer : AliasWriter}
    (h : writer ∈ blocks.flatMap (blockWriters target)) : target ∈ aliasWrittenLocals blocks := by
  obtain ⟨block, hblock, hwriter⟩ := List.mem_flatMap.1 h
  refine List.mem_flatMap.2 ⟨block, hblock, List.mem_append.2 ?_⟩
  rw [blockWriters, List.mem_append] at hwriter
  cases hwriter with
  | inl hstatement =>
      obtain ⟨statement, hmem, hsome⟩ := List.mem_filterMap.1 hstatement
      exact .inl (List.mem_flatMap.2 ⟨statement, hmem, statementWriter_written hsome⟩)
  | inr hterminator =>
      refine .inr ?_
      rw [terminatorWriters.eq_def] at hterminator
      split at hterminator
      · simp only [List.mem_map, List.mem_filter, decide_eq_true_eq] at hterminator ⊢
        obtain ⟨argument, ⟨hmem, heq⟩, -⟩ := hterminator
        exact ⟨argument, hmem, heq⟩
      · rw [List.mem_append, List.mem_singleton]
        split_ifs at hterminator with hsuccess herror
        · exact .inl hsuccess
        · exact .inr herror.symm
        · exact absurd hterminator List.not_mem_nil
      · exact absurd hterminator List.not_mem_nil

/-- The written locals that are not being looked at. -/
def unvisitedWritten (blocks : List HirBlock) (visiting : List LocalId) : Nat :=
  ((aliasWrittenLocals blocks).filter fun target => decide (target ∉ visiting)).length

theorem unvisitedWritten_lt {target : LocalId} {visiting : List LocalId}
    (hwritten : target ∈ aliasWrittenLocals blocks) (hnew : target ∉ visiting) :
    unvisitedWritten blocks (target :: visiting) < unvisitedWritten blocks visiting := by
  have hsplit : (aliasWrittenLocals blocks).filter (fun a => decide (a ∉ target :: visiting)) =
      ((aliasWrittenLocals blocks).filter fun a => decide (a ∉ visiting)).filter
        fun a => decide (a ≠ target) := by
    rw [List.filter_filter]
    refine List.filter_congr fun a _ => ?_
    simp only [List.mem_cons, not_or, ne_eq, Bool.decide_and]
  rw [unvisitedWritten, hsplit]
  exact List.length_filter_lt_length_iff_exists.2
    ⟨target, List.mem_filter.2 ⟨hwritten, decide_eq_true hnew⟩, by simp⟩

/-- With a level for each written local that is still to be looked at, only a callee's summary
can end the classification. -/
theorem classifyReturnLocal_error {fuel : Nat} {visiting : List LocalId} {target : LocalId}
    {e : CallSummaryError} (hfuel : unvisitedWritten blocks visiting + 1 ≤ fuel)
    (h : classifyReturnLocal store environment summaries params blocks fuel visiting target =
      .error e) : ProjectionError e := by
  induction fuel generalizing visiting target e with
  | zero => exact absurd hfuel (Nat.not_succ_le_zero _)
  | succ fuel ih =>
      rw [classifyReturnLocal] at h
      split at h
      · cases h
      · next hnew =>
          cases hrun : (blocks.flatMap (blockWriters target)).mapM
              (classifyWriter store environment summaries params
                (classifyReturnLocal store environment summaries params blocks fuel
                  (target :: visiting))) with
          | ok answers =>
              rw [hrun] at h
              cases h
          | error e' =>
              rw [hrun] at h
              cases h
              obtain ⟨writer, hmem, hwriter⟩ := mapM_error hrun
              have hlt := unvisitedWritten_lt (mem_aliasWrittenLocals hmem) hnew
              refine classifyWriter_error (fun source e' hsource => ?_) hwriter
              exact ih (by omega) hsource

theorem classifyReturned_error {value : HirValueId} {e : CallSummaryError}
    (h : classifyReturned store environment summaries params blocks value = .error e) :
    ProjectionError e := by
  refine classifyReturnExpression_error (fun target e' hlocal => ?_) h
  refine classifyReturnLocal_error ?_ hlocal
  have hle : unvisitedWritten blocks [] ≤ (aliasWrittenLocals blocks).length :=
    List.length_filter_le _ _
  rw [classificationDepth]
  omega

theorem mergeReturned_error {values : List HirValueId} {summary : FunctionReturnAliasSummary}
    {e : CallSummaryError}
    (h : mergeReturned store environment summaries params blocks values summary = .error e) :
    ProjectionError e := by
  induction values generalizing summary with
  | nil => cases h
  | cons value rest ih =>
      rw [mergeReturned] at h
      split at h
      · next hfail =>
          cases h
          exact classifyReturned_error hfail
      · exact ih h

theorem classifyReturnBlocks_error {rest : List HirBlock} {summary : FunctionReturnAliasSummary}
    {sawReturn : Bool} {e : CallSummaryError}
    (h : classifyReturnBlocks store environment summaries params blocks rest summary sawReturn =
      .error e) : ProjectionError e := by
  induction rest generalizing summary sawReturn with
  | nil => cases h
  | cons block rest ih =>
      rw [classifyReturnBlocks] at h
      split at h
      · split at h
        · next hfail =>
            cases h
            exact mergeReturned_error hfail
        · cases h
        · exact ih h
      · exact ih h

theorem classifyFunctionReturnAlias_error {hir : HirModule} {function : HirFunction}
    {e : CallSummaryError}
    (h : classifyFunctionReturnAlias hir environment summaries function = .error e) :
    e = .UnresolvedBlock function.id ∨ ProjectionError e := by
  rw [classifyFunctionReturnAlias] at h
  split at h
  · next hfail =>
      cases h
      rw [reachableBlocks] at hfail
      split at hfail
      · cases hfail
        exact .inl rfl
      · split at hfail
        · cases hfail
          exact .inl rfl
        · cases hfail
  · exact .inr (classifyReturnBlocks_error h)

end Errors

/-! ## The summaries read -/

section Reads

variable {store : HirExpressionStore} {environment : CallEnvironment}
  {summaries summaries' : SummaryTable} {params : List LocalId} {blocks : List HirBlock}

/-- Two tables agree on the alias summaries of a list of functions. -/
def AgreeOnAliases (summaries summaries' : SummaryTable) (callees : List FunctionId) : Prop :=
  ∀ callee ∈ callees, (summaries callee).map (fun summary => summary.returnAlias) =
    (summaries' callee).map fun summary => summary.returnAlias

theorem calleeReturnAlias_congr {target : CallTarget}
    (h : ∀ callee, target = .Local callee →
      (summaries callee).map (fun summary => summary.returnAlias) =
        (summaries' callee).map fun summary => summary.returnAlias) :
    calleeReturnAlias environment summaries target =
      calleeReturnAlias environment summaries' target := by
  cases target with
  | Local callee => simp only [calleeReturnAlias, h callee rfl]
  | CrossModule _ => rfl
  | ModulePrivate _ => rfl
  | Generated _ => rfl
  | External _ => rfl

theorem classifyWriter_congr {classifyLocal : LocalId → Classified} {writer : AliasWriter}
    (h : ∀ callee args, writer = .CallResult (.Local callee) args →
      (summaries callee).map (fun summary => summary.returnAlias) =
        (summaries' callee).map fun summary => summary.returnAlias) :
    classifyWriter store environment summaries params classifyLocal writer =
      classifyWriter store environment summaries' params classifyLocal writer := by
  cases writer with
  | CallResult target args =>
      have hcallee : calleeReturnAlias environment summaries target =
          calleeReturnAlias environment summaries' target :=
        calleeReturnAlias_congr fun callee heq => h callee args (by rw [heq])
      rw [classifyWriter, classifyWriter, classifyCallResult, classifyCallResult, hcallee]
  | Expression _ => rfl
  | MapResult _ _ => rfl
  | Computed => rfl
  | Transport _ => rfl

theorem call_of_statementWriter {target : LocalId} {callee : CallTarget} {args : List HirValueId}
    {statement : HirStatement}
    (h : statementWriter target statement = some (.CallResult callee args)) :
    ∃ results, statement.kind = .Call callee args results := by
  rw [statementWriter] at h
  cases hkind : statement.kind with
  | Call called passed results =>
      rw [hkind] at h
      simp only [Option.ite_none_right_eq_some, Option.some.injEq] at h
      cases h.2
      exact ⟨results, rfl⟩
  | MapOp op receiver args result =>
      rw [hkind] at h
      cases result with
      | none => cases h
      | some result => simp at h
  | Write written value => simp [hkind] at h
  | NumericOp op mode operands result => simp [hkind] at h
  | LoopStepFailure cause mode result => simp [hkind] at h
  | FormatFloat source mode result => simp [hkind] at h
  | ValidateFloat source mode result => simp [hkind] at h
  | RangeCandidate current step last inclusive domain candidateResult inRangeResult =>
      simp [hkind] at h
  | Expr value => simp [hkind] at h
  | PushRuntimeFragment vec value => simp [hkind] at h

theorem callee_mem_of_writer {target : LocalId} {callee : FunctionId} {args : List HirValueId}
    {block : HirBlock} (h : .CallResult (.Local callee) args ∈ blockWriters target block) :
    callee ∈ localCallees block := by
  rw [blockWriters, List.mem_append] at h
  rw [localCallees, List.mem_append]
  cases h with
  | inl hstatement =>
      obtain ⟨statement, hmem, hsome⟩ := List.mem_filterMap.1 hstatement
      obtain ⟨results, hkind⟩ := call_of_statementWriter hsome
      exact .inl (List.mem_filterMap.2 ⟨statement, hmem, by rw [hkind]⟩)
  | inr hterminator =>
      refine .inr ?_
      rw [terminatorWriters.eq_def] at hterminator
      split at hterminator
      · simp at hterminator
      · next operation _ _ _ _ heq =>
          split_ifs at hterminator
          · rw [List.mem_singleton] at hterminator
            cases operation with
            | Call called passed =>
                rw [operationWriter] at hterminator
                cases hterminator
                simp [heq]
            | CastOp _ _ => cases hterminator
            | MapOp _ _ _ => cases hterminator
            | NumericOp _ _ => cases hterminator
            | LoopStepFailure _ => cases hterminator
            | FormatFloat _ => cases hterminator
            | ValidateFloat _ => cases hterminator
          · cases List.mem_singleton.1 hterminator
          · exact absurd hterminator List.not_mem_nil
      · exact absurd hterminator List.not_mem_nil

theorem classifyReturnLocal_congr
    (h : AgreeOnAliases summaries summaries' (blocks.flatMap localCallees)) (fuel : Nat) :
    ∀ visiting target,
      classifyReturnLocal store environment summaries params blocks fuel visiting target =
        classifyReturnLocal store environment summaries' params blocks fuel visiting target := by
  induction fuel with
  | zero => exact fun _ _ => rfl
  | succ fuel ih =>
      intro visiting target
      rw [classifyReturnLocal, classifyReturnLocal, funext (ih (target :: visiting))]
      rw [mapM_congr fun writer hmem => classifyWriter_congr fun callee args heq => ?_]
      obtain ⟨block, hblock, hwriter⟩ := List.mem_flatMap.1 hmem
      rw [heq] at hwriter
      exact h callee (List.mem_flatMap.2 ⟨block, hblock, callee_mem_of_writer hwriter⟩)

theorem classifyReturnBlocks_congr
    (h : AgreeOnAliases summaries summaries' (blocks.flatMap localCallees))
    (rest : List HirBlock) (summary : FunctionReturnAliasSummary) (sawReturn : Bool) :
    classifyReturnBlocks store environment summaries params blocks rest summary sawReturn =
      classifyReturnBlocks store environment summaries' params blocks rest summary sawReturn := by
  have hreturned : classifyReturned store environment summaries params blocks =
      classifyReturned store environment summaries' params blocks := by
    funext value
    rw [classifyReturned, classifyReturned,
      funext (classifyReturnLocal_congr h (classificationDepth blocks) [])]
  have hmerged : ∀ values summary,
      mergeReturned store environment summaries params blocks values summary =
        mergeReturned store environment summaries' params blocks values summary := by
    intro values
    induction values with
    | nil => exact fun _ => rfl
    | cons value rest ih =>
        intro summary
        rw [mergeReturned, mergeReturned, hreturned]
        cases classifyReturned store environment summaries' params blocks value with
        | error e => rfl
        | ok returned => exact ih _
  induction rest generalizing summary sawReturn with
  | nil => rfl
  | cons block rest ih =>
      rw [classifyReturnBlocks, classifyReturnBlocks]
      split
      · rw [hmerged]
        split
        · rfl
        · rfl
        · exact ih _ _
      · exact ih _ _

theorem classifyFunctionReturnAlias_congr {hir : HirModule} {function : HirFunction}
    (h : ∀ blocks, reachableBlocks hir function = .ok blocks →
      AgreeOnAliases summaries summaries' (blocks.flatMap localCallees)) :
    classifyFunctionReturnAlias hir environment summaries function =
      classifyFunctionReturnAlias hir environment summaries' function := by
  rw [classifyFunctionReturnAlias, classifyFunctionReturnAlias]
  cases hblocks : reachableBlocks hir function with
  | error e => rfl
  | ok blocks => exact classifyReturnBlocks_congr (h blocks hblocks) blocks .Fresh false

end Reads

end Moth.Borrow
