import Moth.Borrow.ReturnAliasFacts

/-!
# Settling return aliases

The functions that local calls lead back to are unknown from the first round
on. The others have a height in the call graph that falls along every call
between them, and a function is settled, that is, classified from the table as
what it is in the table, once its callees are: so after each round the heights
up to the number of the round are settled, and a round that finds every
function settled changes nothing.
-/

namespace Moth.Borrow

open Moth.Hir Moth.Lib

/-! ## Publishing a round -/

def aliasOf (table : SummaryTable) (id : FunctionId) : Option FunctionReturnAliasSummary :=
  (table id).map fun summary => summary.returnAlias

def setAlias (retained : FunctionReturnAliasSummary) (summary : PublicCallSummary) :
    PublicCallSummary :=
  { summary with returnAlias := retained }

/-- The table after the aliases of a list of rows have been replaced. -/
structure Published (rows : List (FunctionId × FunctionReturnAliasSummary))
    (table next : SummaryTable) : Prop where
  replaced : ∀ row ∈ rows, next row.1 = (table row.1).map (setAlias row.2)
  others : ∀ id, id ∉ rows.map Prod.fst → next id = table id

theorem publishReturnAlias_ok {row : FunctionId × FunctionReturnAliasSummary}
    {table : SummaryTable} (h : (table row.1).isSome) :
    publishReturnAlias row table =
      .ok (Function.update table row.1 ((table row.1).map (setAlias row.2)),
        decide (aliasOf table row.1 ≠ some row.2)) := by
  obtain ⟨summary, hsummary⟩ := Option.isSome_iff_exists.1 h
  rw [publishReturnAlias, aliasOf, hsummary]
  simp only [Option.map_some, ne_eq, Option.some.injEq]
  by_cases heq : summary.returnAlias = row.2
  · have hsame : setAlias row.2 summary = summary := by
      rw [setAlias, ← heq]
    rw [if_neg (not_not_intro heq), hsame, ← hsummary, Function.update_eq_self]
    simp [heq]
  · rw [if_pos heq]
    simp [heq, setAlias]

theorem publish_spec {rows : List (FunctionId × FunctionReturnAliasSummary)}
    {table : SummaryTable} (hnodup : (rows.map Prod.fst).Nodup)
    (hpresent : ∀ row ∈ rows, (table row.1).isSome) :
    ∃ next changed, inPlace publishReturnAlias rows table = .ok (next, changed) ∧
      Published rows table next ∧
      (changed = false ↔ ∀ row ∈ rows, aliasOf table row.1 = some row.2) := by
  induction rows generalizing table with
  | nil =>
      exact ⟨table, false, rfl, ⟨fun _ h => absurd h List.not_mem_nil, fun _ _ => rfl⟩,
        ⟨fun _ _ h => absurd h List.not_mem_nil, fun _ => rfl⟩⟩
  | cons row rest ih =>
      rw [List.map_cons, List.nodup_cons] at hnodup
      have hfirst := publishReturnAlias_ok (hpresent row List.mem_cons_self)
      have hout : ∀ other ∈ rest, other.1 ≠ row.1 :=
        fun other hmem heq => hnodup.1 (heq ▸ List.mem_map_of_mem hmem)
      have hkept : ∀ other ∈ rest, (Function.update table row.1
          ((table row.1).map (setAlias row.2)) other.1).isSome := by
        intro other hmem
        rw [Function.update_of_ne (hout other hmem)]
        exact hpresent other (List.mem_cons_of_mem _ hmem)
      obtain ⟨next, later, hrun, hpublished, hlater⟩ := ih hnodup.2 hkept
      refine ⟨next, _, inPlace_cons_ok.2 ⟨_, _, later, hfirst, hrun, rfl⟩, ⟨?_, ?_⟩, ?_⟩
      · intro other hmem
        cases List.mem_cons.1 hmem with
        | inl heq =>
            rw [heq, hpublished.others _ hnodup.1, Function.update_self]
        | inr hin =>
            rw [hpublished.replaced other hin, Function.update_of_ne (hout other hin)]
      · intro id hid
        rw [List.map_cons, List.mem_cons, not_or] at hid
        rw [hpublished.others id hid.2, Function.update_of_ne hid.1]
      · have hrest : ∀ other ∈ rest, aliasOf (Function.update table row.1
            ((table row.1).map (setAlias row.2))) other.1 = aliasOf table other.1 := by
          intro other hmem
          rw [aliasOf, aliasOf, Function.update_of_ne (hout other hmem)]
        rw [Bool.or_eq_false_iff, hlater, decide_eq_false_iff_not, ne_eq, not_not,
          List.forall_mem_cons]
        refine and_congr_right fun _ => forall_congr' fun other => forall_congr' fun hmem => ?_
        rw [hrest other hmem]

theorem publish_error {rows : List (FunctionId × FunctionReturnAliasSummary)}
    {table : SummaryTable} {e : CallSummaryError}
    (h : inPlace publishReturnAlias rows table = .error e) : ∃ target, e = .MissingSummary target := by
  obtain ⟨row, -, last, -, hrow⟩ := inPlace_error (P := fun _ => True)
    (fun _ _ _ _ _ _ _ => trivial) trivial h
  rw [publishReturnAlias] at hrow
  split at hrow
  · cases hrow
    exact ⟨_, rfl⟩
  · split at hrow
    · cases hrow
    · cases hrow

theorem Published.unique {rows rows' : List (FunctionId × FunctionReturnAliasSummary)}
    {table next next' : SummaryTable} (hperm : rows'.Perm rows) (h : Published rows table next)
    (h' : Published rows' table next') : next' = next := by
  funext id
  by_cases hid : id ∈ rows.map Prod.fst
  · obtain ⟨row, hmem, heq⟩ := List.mem_map.1 hid
    rw [← heq, h.replaced row hmem, h'.replaced row (hperm.mem_iff.2 hmem)]
  · rw [h.others id hid, h'.others id fun hin => hid ((hperm.map Prod.fst).mem_iff.1 hin)]

/-! ## The call graph -/

/-- A function of the module calls another one in a reachable block. -/
def LocalCall (hir : HirModule) (caller callee : FunctionId) : Prop :=
  ∃ function ∈ hir.functions, function.id = caller ∧
    ∃ blocks, reachableBlocks hir function = .ok blocks ∧ callee ∈ blocks.flatMap localCallees

section Graph

variable {hir : HirModule}

theorem functionCallees_ok {function : HirFunction} {entry : FunctionId × List FunctionId}
    (h : functionCallees hir function = .ok entry) :
    entry.1 = function.id ∧ ∃ blocks, reachableBlocks hir function = .ok blocks ∧
      ∀ callee, callee ∈ entry.2 ↔ callee ∈ blocks.flatMap localCallees := by
  rw [functionCallees] at h
  split at h
  · cases h
  · next blocks hblocks =>
      cases h
      refine ⟨rfl, blocks, hblocks, fun callee => ?_⟩
      rw [List.mem_dedup, List.mem_insertionSort]

theorem calleesOf_mem {edges : List (FunctionId × List FunctionId)}
    (hnodup : (edges.map Prod.fst).Nodup) {entry : FunctionId × List FunctionId}
    (hmem : entry ∈ edges) : calleesOf edges entry.1 = some entry.2 := by
  induction edges with
  | nil => exact absurd hmem List.not_mem_nil
  | cons first rest ih =>
      rw [List.map_cons, List.nodup_cons] at hnodup
      rw [calleesOf, List.find?_cons]
      cases List.mem_cons.1 hmem with
      | inl heq => simp [heq]
      | inr hin =>
          have hne : first.1 ≠ entry.1 := fun heq => hnodup.1 (heq ▸ List.mem_map_of_mem hin)
          rw [decide_eq_false hne]
          exact ih hnodup.2 hin

theorem edges_ids {functions : List HirFunction} {edges : List (FunctionId × List FunctionId)}
    (h : List.Forall₂ (fun function entry => functionCallees hir function = .ok entry) functions
      edges) : edges.map Prod.fst = functions.map fun function => function.id := by
  induction h with
  | nil => rfl
  | cons hfirst _ ih => rw [List.map_cons, List.map_cons, ih, (functionCallees_ok hfirst).1]

theorem callGraph_edge_iff {edges : List (FunctionId × List FunctionId)}
    (hids : (hir.functions.map fun function => function.id).Nodup)
    (h : hir.functions.mapM (functionCallees hir) = .ok edges) {caller callee : FunctionId} :
    (callGraph edges).Edge caller callee ↔ LocalCall hir caller callee := by
  have hall := mapM_ok_iff.1 h
  have hnodup : (edges.map Prod.fst).Nodup := by
    rw [edges_ids hall]
    exact hids
  constructor
  · intro hedge
    obtain ⟨next, hnext, hin⟩ := hedge
    obtain ⟨entry, hfound, heq⟩ := Option.map_eq_some_iff.1 hnext
    obtain ⟨function, hmem, hentry⟩ := forall₂_exists_left hall (List.mem_of_find?_eq_some hfound)
    obtain ⟨hid, blocks, hblocks, hcallees⟩ := functionCallees_ok hentry
    have hdecided := List.find?_some hfound
    have hcaller : entry.1 = caller := of_decide_eq_true hdecided
    rw [← heq] at hin
    exact ⟨function, hmem, hid.symm.trans hcaller, blocks, hblocks, (hcallees callee).1 hin⟩
  · intro hcall
    obtain ⟨function, hmem, hid, blocks, hblocks, hin⟩ := hcall
    obtain ⟨entry, hentry, hcallees⟩ := forall₂_exists_right hall hmem
    obtain ⟨hid', blocks', hblocks', hall'⟩ := functionCallees_ok hcallees
    rw [hblocks] at hblocks'
    cases hblocks'
    refine ⟨entry.2, ?_, (hall' callee).2 hin⟩
    rw [← hid, ← hid']
    exact calleesOf_mem hnodup hentry

theorem mem_recursive_iff {recursive : List FunctionId}
    (hids : (hir.functions.map fun function => function.id).Nodup)
    (h : recursiveReturnAliasFunctions hir = .ok recursive) {id : FunctionId} :
    id ∈ recursive ↔ id ∈ hir.functions.map (fun function => function.id) ∧
      Relation.TransGen (LocalCall hir) id id := by
  rw [recursiveReturnAliasFunctions] at h
  split at h
  · cases h
  · next edges hedges =>
      cases h
      have hedge : (callGraph edges).Edge = LocalCall hir := by
        funext caller callee
        exact propext (callGraph_edge_iff hids hedges)
      have hlen : (callGraph edges).nodes.length = edges.length := List.length_map _
      obtain ⟨found, after, hsearch, hfound⟩ := (callGraph edges).search_iff id id
      rw [hlen] at hsearch
      rw [List.mem_filter, reachesFunction, hsearch, ← hedge, ← hfound]
      rfl

theorem recursive_error {e : CallSummaryError}
    (h : recursiveReturnAliasFunctions hir = .error e) : ∃ function, e = .UnresolvedBlock function := by
  rw [recursiveReturnAliasFunctions] at h
  split at h
  · next hfail =>
      cases h
      obtain ⟨function, -, hfunction⟩ := mapM_error hfail
      rw [functionCallees] at hfunction
      split at hfunction
      · next hblocks =>
          cases hfunction
          rw [reachableBlocks] at hblocks
          split at hblocks
          · cases hblocks
            exact ⟨_, rfl⟩
          · split at hblocks
            · cases hblocks
              exact ⟨_, rfl⟩
            · cases hblocks
      · cases hfunction
  · cases h

end Graph

/-! ## One round -/

/-- The table has a summary for every function of the module. -/
def HasSummaries (hir : HirModule) (table : SummaryTable) : Prop :=
  ∀ function ∈ hir.functions, (table function.id).isSome

/-- A function is in the table what a round would publish for it. -/
def Settled (hir : HirModule) (environment : CallEnvironment) (recursive : List FunctionId)
    (table : SummaryTable) (function : HirFunction) : Prop :=
  ∃ retained, retainedReturnAlias hir environment recursive table function =
    .ok (function.id, retained) ∧ aliasOf table function.id = some retained

section Round

variable {hir : HirModule} {environment : CallEnvironment} {recursive : List FunctionId}
  {table next : SummaryTable}

theorem retainedReturnAlias_id {function : HirFunction}
    {row : FunctionId × FunctionReturnAliasSummary}
    (h : retainedReturnAlias hir environment recursive table function = .ok row) :
    row.1 = function.id := by
  rw [retainedReturnAlias] at h
  split at h
  · cases h
    rfl
  · split at h
    · cases h
    · cases h
      rfl

theorem retained_ids {functions : List HirFunction}
    {rows : List (FunctionId × FunctionReturnAliasSummary)}
    (h : List.Forall₂ (fun function row =>
      retainedReturnAlias hir environment recursive table function = .ok row) functions rows) :
    rows.map Prod.fst = functions.map fun function => function.id := by
  induction h with
  | nil => rfl
  | cons hfirst _ ih => rw [List.map_cons, List.map_cons, ih, retainedReturnAlias_id hfirst]

/-- A round publishes what it retained for each function and reports whether any was unsettled. -/
structure RoundDone (hir : HirModule) (environment : CallEnvironment)
    (recursive : List FunctionId) (table next : SummaryTable) (changed : Bool) : Prop where
  retained : ∀ function ∈ hir.functions, ∃ retained,
    retainedReturnAlias hir environment recursive table function = .ok (function.id, retained) ∧
      next function.id = (table function.id).map (setAlias retained)
  others : ∀ id, id ∉ hir.functions.map (fun function => function.id) → next id = table id
  changed_iff : changed = false ↔
    ∀ function ∈ hir.functions, Settled hir environment recursive table function

theorem publish_retained {functions : List HirFunction}
    (hids : (functions.map fun function => function.id).Nodup)
    (hpresent : ∀ function ∈ functions, (table function.id).isSome)
    {rows : List (FunctionId × FunctionReturnAliasSummary)}
    (h : functions.mapM (retainedReturnAlias hir environment recursive table) = .ok rows) :
    ∃ next changed, inPlace publishReturnAlias rows table = .ok (next, changed) ∧
      Published rows table next ∧
      (changed = false ↔ ∀ row ∈ rows, aliasOf table row.1 = some row.2) := by
  have hall := mapM_ok_iff.1 h
  refine publish_spec (by rw [retained_ids hall]; exact hids) fun row hmem => ?_
  obtain ⟨function, hfunction, hrow⟩ := forall₂_exists_left hall hmem
  rw [retainedReturnAlias_id hrow]
  exact hpresent function hfunction

theorem returnAliasRound_done (hids : (hir.functions.map fun function => function.id).Nodup)
    (hpresent : HasSummaries hir table) {changed : Bool}
    (h : returnAliasRound hir environment recursive table = .ok (next, changed)) :
    RoundDone hir environment recursive table next changed := by
  rw [returnAliasRound] at h
  split at h
  · cases h
  · next rows hrows =>
      have hall := mapM_ok_iff.1 hrows
      obtain ⟨final, changed', hrun, hpublished, hchanged⟩ := publish_retained hids hpresent hrows
      rw [hrun] at h
      cases h
      refine ⟨fun function hfunction => ?_, fun id hid => ?_, ?_⟩
      · obtain ⟨row, hmem, hrow⟩ := forall₂_exists_right hall hfunction
        have hid := retainedReturnAlias_id hrow
        refine ⟨row.2, ?_, ?_⟩
        · rw [← hid]
          exact hrow
        · rw [← hid]
          exact hpublished.replaced row hmem
      · refine hpublished.others id ?_
        rw [retained_ids hall]
        exact hid
      · rw [hchanged]
        constructor
        · intro hrows function hfunction
          obtain ⟨row, hmem, hrow⟩ := forall₂_exists_right hall hfunction
          have hid := retainedReturnAlias_id hrow
          refine ⟨row.2, ?_, ?_⟩
          · rw [← hid]
            exact hrow
          · rw [← hid]
            exact hrows row hmem
        · intro hsettled row hmem
          obtain ⟨function, hfunction, hrow⟩ := forall₂_exists_left hall hmem
          obtain ⟨retained, hretained, halias⟩ := hsettled function hfunction
          rw [hrow] at hretained
          cases hretained
          exact halias

/-- The errors that a round can end with. -/
def RoundError (e : CallSummaryError) : Prop :=
  (∃ function, e = .UnresolvedBlock function) ∨ ProjectionError e

theorem returnAliasRound_error {e : CallSummaryError}
    (h : returnAliasRound hir environment recursive table = .error e) : RoundError e := by
  rw [returnAliasRound] at h
  split at h
  · next hfail =>
      cases h
      obtain ⟨function, -, hfunction⟩ := mapM_error hfail
      rw [retainedReturnAlias] at hfunction
      split at hfunction
      · cases hfunction
      · split at hfunction
        · next hclassify =>
            cases hfunction
            cases classifyFunctionReturnAlias_error hclassify with
            | inl hblock => exact .inl ⟨_, hblock⟩
            | inr hprojection => exact .inr hprojection
        · cases hfunction
  · exact .inr (.inl (publish_error h))

/-! ## Rounds -/

theorem RoundDone.aliasOf_eq {changed : Bool} {function : HirFunction}
    (h : RoundDone hir environment recursive table next changed)
    (hpresent : HasSummaries hir table) (hfunction : function ∈ hir.functions) :
    ∃ retained, retainedReturnAlias hir environment recursive table function =
      .ok (function.id, retained) ∧ aliasOf next function.id = some retained := by
  obtain ⟨retained, hretained, hnext⟩ := h.retained function hfunction
  obtain ⟨summary, hsummary⟩ := Option.isSome_iff_exists.1 (hpresent function hfunction)
  refine ⟨retained, hretained, ?_⟩
  rw [aliasOf, hnext, hsummary]
  rfl

theorem RoundDone.hasSummaries {changed : Bool}
    (h : RoundDone hir environment recursive table next changed)
    (hpresent : HasSummaries hir table) : HasSummaries hir next := by
  intro function hfunction
  obtain ⟨retained, -, hnext⟩ := h.retained function hfunction
  rw [hnext, Option.isSome_map]
  exact hpresent function hfunction

theorem RoundDone.settled {changed : Bool} {function : HirFunction}
    (h : RoundDone hir environment recursive table next changed)
    (hpresent : HasSummaries hir table) (hfunction : function ∈ hir.functions)
    (hcallees : function.id ∉ recursive → ∀ callee ∈ hir.functions,
      LocalCall hir function.id callee.id → Settled hir environment recursive table callee) :
    Settled hir environment recursive next function := by
  obtain ⟨retained, hretained, halias⟩ := h.aliasOf_eq hpresent hfunction
  refine ⟨retained, ?_, halias⟩
  rw [retainedReturnAlias] at hretained ⊢
  by_cases hrecursive : function.id ∈ recursive
  · rw [if_pos hrecursive] at hretained ⊢
    exact hretained
  · rw [if_neg hrecursive] at hretained ⊢
    have hsame : classifyFunctionReturnAlias hir environment table function =
        classifyFunctionReturnAlias hir environment next function := by
      refine classifyFunctionReturnAlias_congr fun blocks hblocks callee hcallee => ?_
      show aliasOf table callee = aliasOf next callee
      by_cases hlocal : callee ∈ hir.functions.map fun function => function.id
      · obtain ⟨other, hother, heq⟩ := List.mem_map.1 hlocal
        subst heq
        obtain ⟨settled, hsettled, hbefore⟩ := hcallees hrecursive other hother
          ⟨function, hfunction, rfl, blocks, hblocks, hcallee⟩
        obtain ⟨retained', hretained', hafter⟩ := h.aliasOf_eq hpresent hother
        rw [hsettled] at hretained'
        cases hretained'
        rw [hbefore, hafter]
      · rw [aliasOf, aliasOf, h.others callee hlocal]
    rw [← hsame]
    exact hretained

end Round

section Rounds

variable {hir : HirModule} {environment : CallEnvironment} {recursive : List FunctionId}

/-- The ids of the module's functions. -/
def functionNodes (hir : HirModule) : Finset FunctionId :=
  (hir.functions.map fun function => function.id).toFinset

/-- With `n` rounds to go, recursive functions and those of small height are settled. -/
def SettledBelow (hir : HirModule) (environment : CallEnvironment) (recursive : List FunctionId)
    (n : Nat) (table : SummaryTable) : Prop :=
  HasSummaries hir table ∧ ∀ function ∈ hir.functions,
    function.id ∈ recursive ∨
      height (LocalCall hir) (functionNodes hir) function.id + n < (functionNodes hir).card →
    Settled hir environment recursive table function

theorem settledBelow_step (hids : (hir.functions.map fun function => function.id).Nodup)
    (hrecursive : recursiveReturnAliasFunctions hir = .ok recursive) (n : Nat)
    (table next : SummaryTable) (h : SettledBelow hir environment recursive n table)
    (hround : returnAliasRound hir environment recursive table = .ok (next, true)) :
    ∃ m, n = m + 1 ∧ SettledBelow hir environment recursive m next := by
  obtain ⟨hpresent, hsettled⟩ := h
  have hdone := returnAliasRound_done hids hpresent hround
  have hacyclic : ∀ function ∈ hir.functions, function.id ∉ recursive →
      ¬ Relation.TransGen (LocalCall hir) function.id function.id := by
    intro function hfunction hnot hcycle
    exact hnot ((mem_recursive_iff hids hrecursive).2 ⟨List.mem_map_of_mem hfunction, hcycle⟩)
  have hnode : ∀ function ∈ hir.functions, function.id ∈ functionNodes hir :=
    fun function hfunction => List.mem_toFinset.2 (List.mem_map_of_mem hfunction)
  cases n with
  | zero =>
      -- every function is settled, so the round would have reported no change
      have hall : ∀ function ∈ hir.functions,
          Settled hir environment recursive table function := by
        intro function hfunction
        by_cases hin : function.id ∈ recursive
        · exact hsettled function hfunction (.inl hin)
        · exact hsettled function hfunction
            (.inr (height_lt_card (hnode function hfunction) (hacyclic function hfunction hin)))
      cases hdone.changed_iff.2 hall
  | succ m =>
      refine ⟨m, rfl, hdone.hasSummaries hpresent, fun function hfunction hlow => ?_⟩
      refine hdone.settled hpresent hfunction fun hnot callee hcallee hcall => ?_
      by_cases hin : callee.id ∈ recursive
      · exact hsettled callee hcallee (.inl hin)
      · have hlt := height_lt hcall (hnode callee hcallee) (hacyclic callee hcallee hin)
        have hbound := hlow.resolve_left hnot
        exact hsettled callee hcallee (.inr (by omega))

/-- Two tables differ in alias summaries at most. -/
def SameButAliases (table next : SummaryTable) : Prop :=
  ∀ id, (next id).map (setAlias .Fresh) = (table id).map (setAlias .Fresh)

theorem map_setAlias_setAlias (row : Option PublicCallSummary)
    (first last : FunctionReturnAliasSummary) :
    (row.map (setAlias first)).map (setAlias last) = row.map (setAlias last) := by
  cases row with
  | none => rfl
  | some summary => rfl

theorem Published.sameButAliases {rows : List (FunctionId × FunctionReturnAliasSummary)}
    {table next : SummaryTable} (h : Published rows table next) : SameButAliases table next := by
  intro id
  by_cases hid : id ∈ rows.map Prod.fst
  · obtain ⟨row, hmem, heq⟩ := List.mem_map.1 hid
    rw [← heq, h.replaced row hmem, map_setAlias_setAlias]
  · rw [h.others id hid]

theorem RoundDone.sameButAliases {table next : SummaryTable} {changed : Bool}
    (h : RoundDone hir environment recursive table next changed) : SameButAliases table next := by
  intro id
  by_cases hid : id ∈ hir.functions.map fun function => function.id
  · obtain ⟨function, hfunction, heq⟩ := List.mem_map.1 hid
    obtain ⟨retained, -, hnext⟩ := h.retained function hfunction
    rw [← heq, hnext, map_setAlias_setAlias]
  · rw [h.others id hid]

theorem SameButAliases.hasSummaries {table next : SummaryTable} (h : SameButAliases table next)
    (hpresent : HasSummaries hir table) : HasSummaries hir next := by
  intro function hfunction
  have hrow := congrArg Option.isSome (h function.id)
  rw [Option.isSome_map, Option.isSome_map] at hrow
  rw [hrow]
  exact hpresent function hfunction

theorem recursive_nodup (hids : (hir.functions.map fun function => function.id).Nodup)
    (h : recursiveReturnAliasFunctions hir = .ok recursive) : recursive.Nodup := by
  rw [recursiveReturnAliasFunctions] at h
  split at h
  · cases h
  · cases h
    exact hids.filter _

theorem publish_unknown (hids : (hir.functions.map fun function => function.id).Nodup)
    (hrecursive : recursiveReturnAliasFunctions hir = .ok recursive) {table : SummaryTable}
    (hpresent : HasSummaries hir table) :
    ∃ marked changed, inPlace publishReturnAlias
        (recursive.map fun id => (id, FunctionReturnAliasSummary.Unknown)) table =
          .ok (marked, changed) ∧
      Published (recursive.map fun id => (id, .Unknown)) table marked := by
  have hkeys : (recursive.map fun id => (id, FunctionReturnAliasSummary.Unknown)).map Prod.fst =
      recursive := by
    rw [List.map_map]
    exact List.map_id recursive
  have hrows : ∀ row ∈ recursive.map (fun id => (id, FunctionReturnAliasSummary.Unknown)),
      (table row.1).isSome := by
    intro row hrow
    obtain ⟨id, hid, heq⟩ := List.mem_map.1 hrow
    obtain ⟨function, hfunction, hsame⟩ :=
      List.mem_map.1 ((mem_recursive_iff hids hrecursive).1 hid).1
    rw [← heq]
    show (table id).isSome
    rw [← hsame]
    exact hpresent function hfunction
  obtain ⟨marked, changed, hrun, hpublished, -⟩ := publish_spec
    (by rw [hkeys]; exact recursive_nodup hids hrecursive) hrows
  exact ⟨marked, changed, hrun, hpublished⟩

theorem settledBelow_start {table marked : SummaryTable} (hpresent : HasSummaries hir table)
    (h : Published (recursive.map fun id => (id, .Unknown)) table marked) :
    SettledBelow hir environment recursive (functionNodes hir).card marked := by
  refine ⟨h.sameButAliases.hasSummaries hpresent, fun function hfunction hlow => ?_⟩
  cases hlow with
  | inl hin =>
      obtain ⟨summary, hsummary⟩ := Option.isSome_iff_exists.1 (hpresent function hfunction)
      refine ⟨.Unknown, ?_, ?_⟩
      · rw [retainedReturnAlias, if_pos hin]
      · have hrow := h.replaced (function.id, .Unknown) (List.mem_map_of_mem hin)
        rw [aliasOf, hrow, hsummary]
        rfl
  | inr hlt => omega

/-- The aliases settle: the only errors are those of a round, and what is left is settled. -/
theorem stabilizeReturnAliasSummaries_settles
    (hids : (hir.functions.map fun function => function.id).Nodup) {table : SummaryTable}
    (hpresent : HasSummaries hir table) :
    (∀ e, stabilizeReturnAliasSummaries hir environment table = .error e → RoundError e) ∧
    ∀ final, stabilizeReturnAliasSummaries hir environment table = .ok final →
      SameButAliases table final ∧ ∃ recursive, recursiveReturnAliasFunctions hir = .ok recursive ∧
        ∀ function ∈ hir.functions, Settled hir environment recursive final function := by
  rw [stabilizeReturnAliasSummaries]
  cases hrecursive : recursiveReturnAliasFunctions hir with
  | error e =>
      refine ⟨fun e' h => ?_, fun final h => by cases h⟩
      cases h
      exact .inl (recursive_error hrecursive)
  | ok recursive =>
      obtain ⟨marked, changed, hrun, hmarked⟩ := publish_unknown hids hrecursive hpresent
      simp only
      rw [hrun]
      simp only
      have hstart : SettledBelow hir environment recursive (functionNodes hir).card marked :=
        settledBelow_start hpresent hmarked
      refine ⟨fun e h => ?_, fun final h => ?_⟩
      · have hcard : (functionNodes hir).card ≤ hir.functions.length := by
          refine Nat.le_trans (List.toFinset_card_le _) ?_
          rw [List.length_map]
        obtain ⟨m, last, -, hfail⟩ := rounds_error (settledBelow_step hids hrecursive) hstart
          (by omega) h
        exact returnAliasRound_error hfail
      · obtain ⟨last, ⟨hlast, hsame⟩, hround⟩ := rounds_settled
          (P := fun state => HasSummaries hir state ∧ SameButAliases table state)
          (fun state next changed hstate hround => by
            have hdone := returnAliasRound_done hids hstate.1 hround
            exact ⟨hdone.hasSummaries hstate.1,
              fun id => (hdone.sameButAliases id).trans (hstate.2 id)⟩)
          ⟨hstart.1, hmarked.sameButAliases⟩ h
        have hdone := returnAliasRound_done hids hlast hround
        have hall := hdone.changed_iff.1 rfl
        refine ⟨fun id => (hdone.sameButAliases id).trans (hsame id), recursive, rfl, ?_⟩
        exact fun function hfunction => hdone.settled hlast hfunction
          fun _ callee hcallee _ => hall callee hcallee

end Rounds

/-! ## Order -/

/-- Two modules that differ in the order of their functions at most. -/
structure Reordered (hir hir' : HirModule) : Prop where
  expressions : hir'.expressions = hir.expressions
  blocks : hir'.blocks = hir.blocks
  functions : hir'.functions.Perm hir.functions

section Order

variable {hir hir' : HirModule} {environment : CallEnvironment}

theorem Reordered.symm (h : Reordered hir hir') : Reordered hir' hir :=
  ⟨h.expressions.symm, h.blocks.symm, h.functions.symm⟩

theorem Reordered.reachableBlocks (h : Reordered hir hir') (function : HirFunction) :
    reachableBlocks hir' function = reachableBlocks hir function := by
  obtain ⟨expressions, blocks, functions, regions, origins⟩ := hir
  obtain ⟨expressions', blocks', functions', regions', origins'⟩ := hir'
  obtain ⟨hexpressions, hblocks, -⟩ := h
  simp only at hexpressions hblocks
  subst hexpressions hblocks
  rfl

theorem Reordered.ids (h : Reordered hir hir')
    (hids : (hir.functions.map fun function => function.id).Nodup) :
    (hir'.functions.map fun function => function.id).Nodup :=
  (h.functions.map _).nodup_iff.2 hids

theorem Reordered.hasSummaries (h : Reordered hir hir') {table : SummaryTable}
    (hpresent : HasSummaries hir table) : HasSummaries hir' table :=
  fun function hfunction => hpresent function (h.functions.mem_iff.1 hfunction)

theorem Reordered.localCall (h : Reordered hir hir') : LocalCall hir' = LocalCall hir := by
  funext caller callee
  simp only [LocalCall, h.functions.mem_iff, h.reachableBlocks]

theorem Reordered.recursive (h : Reordered hir hir')
    (hids : (hir.functions.map fun function => function.id).Nodup) {recursive : List FunctionId}
    (hrecursive : recursiveReturnAliasFunctions hir = .ok recursive) :
    ∃ recursive', recursiveReturnAliasFunctions hir' = .ok recursive' ∧
      recursive'.Perm recursive := by
  have hsucceeds : ∃ edges, hir'.functions.mapM (functionCallees hir') = .ok edges := by
    have hcallees : functionCallees hir' = functionCallees hir := by
      funext function
      rw [functionCallees, functionCallees, h.reachableBlocks]
    rw [recursiveReturnAliasFunctions] at hrecursive
    split at hrecursive
    · cases hrecursive
    · next edges hedges =>
        obtain ⟨edges', hedges', -⟩ := mapM_perm h.functions hedges
        exact ⟨edges', by rw [hcallees]; exact hedges'⟩
  obtain ⟨edges, hedges⟩ := hsucceeds
  refine ⟨_, by rw [recursiveReturnAliasFunctions, hedges], ?_⟩
  have hrecursive' : recursiveReturnAliasFunctions hir' = .ok
      ((hir'.functions.map fun function => function.id).filter fun id =>
        reachesFunction edges id) := by
    rw [recursiveReturnAliasFunctions, hedges]
  refine (List.perm_ext_iff_of_nodup (recursive_nodup (h.ids hids) hrecursive')
    (recursive_nodup hids hrecursive)).2 fun id => ?_
  rw [mem_recursive_iff (h.ids hids) hrecursive', mem_recursive_iff hids hrecursive, h.localCall,
    (h.functions.map _).mem_iff]

theorem Reordered.retained (h : Reordered hir hir') {recursive recursive' : List FunctionId}
    (hperm : recursive'.Perm recursive) (table : SummaryTable) :
    retainedReturnAlias hir' environment recursive' table =
      retainedReturnAlias hir environment recursive table := by
  funext function
  rw [retainedReturnAlias, retainedReturnAlias, classifyFunctionReturnAlias,
    classifyFunctionReturnAlias, h.reachableBlocks, h.expressions]
  by_cases hin : function.id ∈ recursive
  · rw [if_pos hin, if_pos (hperm.mem_iff.2 hin)]
  · rw [if_neg hin, if_neg fun hin' => hin (hperm.mem_iff.1 hin')]

theorem Reordered.returnAliasRound (h : Reordered hir hir')
    (hids : (hir.functions.map fun function => function.id).Nodup)
    {recursive recursive' : List FunctionId} (hperm : recursive'.Perm recursive)
    {table : SummaryTable} (hpresent : HasSummaries hir table) {answer : SummaryTable × Bool}
    (hround : returnAliasRound hir environment recursive table = .ok answer) :
    returnAliasRound hir' environment recursive' table = .ok answer := by
  rw [Borrow.returnAliasRound] at hround
  split at hround
  · cases hround
  · next rows hrows =>
      obtain ⟨rows', hrows', hrowsPerm⟩ := mapM_perm h.functions hrows
      rw [← h.retained hperm] at hrows'
      obtain ⟨next, changed, hrun, hpublished, hchanged⟩ := publish_retained hids hpresent hrows
      obtain ⟨next', changed', hrun', hpublished', hchanged'⟩ :=
        publish_retained (h.ids hids) (h.hasSummaries hpresent) hrows'
      rw [hrun] at hround
      cases hround
      rw [Borrow.returnAliasRound, hrows']
      simp only
      rw [hrun', hpublished.unique hrowsPerm hpublished']
      have hsame : changed' = false ↔ changed = false := by
        rw [hchanged', hchanged]
        exact forall_congr' fun row => by rw [hrowsPerm.mem_iff]
      have hflag : changed' = changed := by
        cases changed' <;> cases changed <;> simp_all
      rw [hflag]

theorem Reordered.parameterCount (h : Reordered hir hir') :
    parameterCount hir' = parameterCount hir :=
  (h.functions.map _).sum_eq

theorem Reordered.stabilize (h : Reordered hir hir')
    (hids : (hir.functions.map fun function => function.id).Nodup) {table final : SummaryTable}
    (hpresent : HasSummaries hir table)
    (hrun : stabilizeReturnAliasSummaries hir environment table = .ok final) :
    stabilizeReturnAliasSummaries hir' environment table = .ok final := by
  rw [stabilizeReturnAliasSummaries] at hrun ⊢
  cases hrecursive : recursiveReturnAliasFunctions hir with
  | error e =>
      rw [hrecursive] at hrun
      cases hrun
  | ok recursive =>
      obtain ⟨recursive', hrecursive', hperm⟩ := h.recursive hids hrecursive
      obtain ⟨marked, changed, hmark, hmarked⟩ := publish_unknown hids hrecursive hpresent
      obtain ⟨marked', changed', hmark', hmarked'⟩ :=
        publish_unknown (h.ids hids) hrecursive' (h.hasSummaries hpresent)
      have hsame := hmarked.unique (hperm.map _) hmarked'
      subst hsame
      rw [hrecursive] at hrun
      rw [hrecursive']
      simp only [hmark] at hrun
      simp only [hmark']
      rw [h.parameterCount, h.functions.length_eq]
      have hsame : ∀ state, HasSummaries hir state →
          (Borrow.returnAliasRound hir environment recursive state).toOption =
            (Borrow.returnAliasRound hir' environment recursive' state).toOption := by
        intro state hstate
        cases hleft : Borrow.returnAliasRound hir environment recursive state with
        | ok answer => rw [h.returnAliasRound hids hperm hstate hleft]
        | error e =>
            cases hright : Borrow.returnAliasRound hir' environment recursive' state with
            | error e' => rfl
            | ok answer =>
                rw [h.symm.returnAliasRound (h.ids hids) hperm.symm (h.hasSummaries hstate)
                  hright] at hleft
                cases hleft
      have hkeep : ∀ state next changed, HasSummaries hir state →
          Borrow.returnAliasRound hir environment recursive state = .ok (next, changed) →
            HasSummaries hir next := fun state next changed hstate hround =>
        (returnAliasRound_done hids hstate hround).hasSummaries hstate
      have hrounds : (rounds (Borrow.returnAliasRound hir environment recursive)
          CallSummaryError.UnstableReturnAlias
          (Borrow.parameterCount hir + hir.functions.length * 2 + 1) marked').toOption =
          (rounds (Borrow.returnAliasRound hir' environment recursive')
          .UnstableReturnAlias (Borrow.parameterCount hir + hir.functions.length * 2 + 1)
          marked').toOption :=
        rounds_toOption_congr hkeep hsame _ (hmarked.sameButAliases.hasSummaries hpresent)
      rw [hrun] at hrounds
      cases hfinal : rounds (Borrow.returnAliasRound hir' environment recursive')
          .UnstableReturnAlias (Borrow.parameterCount hir + hir.functions.length * 2 + 1)
          marked' with
      | ok final' =>
          rw [hfinal] at hrounds
          cases hrounds
          rfl
      | error e =>
          rw [hfinal] at hrounds
          cases hrounds

end Order

end Moth.Borrow
