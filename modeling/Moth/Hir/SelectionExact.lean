import Moth.Hir.ReachabilityExact

/-!
# The backend selection

A selection is exact for some roots when it has the functions reached from
them, and for each of these the blocks its entry reaches, ascending. The union
builds such a selection, and validation accepts it: what validation computes
anew for each function is what the selection lists.
-/

namespace Moth.Hir

open Moth.Lib Moth.Source

variable {hir : HirModule} {side : HirSideFacts} {facts : HirModuleLinkFacts}
  {roots : List FunctionId} {seen : List LinkNode} {state : UnionState}

/-- The selection is the closure of the roots and nothing else. -/
structure SelectionExact (hir : HirModule) (roots : List FunctionId)
    (selection : HirBackendSelection) : Prop where
  functions : ∀ f, f ∈ selection.functions ↔ hir.ReachedFrom roots f
  blocks : ∀ b, b ∈ selection.blocks ↔ ∃ function ∈ hir.functions,
    hir.ReachedFrom roots function.id ∧ hir.Reaches function.entry b
  nodup : (selection.blocksByFunction.map HirSelectedFunctionBlocks.functionId).Nodup
  listed : ∀ f, f ∈ selection.blocksByFunction.map HirSelectedFunctionBlocks.functionId ↔
    hir.ReachedFrom roots f
  rows : ∀ row ∈ selection.blocksByFunction, ∃ function ∈ hir.functions,
    function.id = row.functionId ∧ (row.blocks.Pairwise fun b c => b.index < c.index) ∧
      ∀ b, b ∈ row.blocks ↔ hir.Reaches function.entry b

theorem HirModule.ReachedFrom.known (hvalid : hir.Validated side)
    (hroots : ∀ root ∈ roots, root ∈ hir.functions.map HirFunction.id) {f : FunctionId}
    (h : hir.ReachedFrom roots f) : ∃ function ∈ hir.functions, function.id = f := by
  obtain ⟨root, hroot, hreach⟩ := h
  cases hreach with
  | refl => exact List.mem_map.1 (hroots _ hroot)
  | tail _ hcalls =>
      obtain ⟨_, _, _, block, _, hblock, hcallee⟩ := hcalls
      exact List.mem_map.1 (hvalid.callees block (HirModule.blockById_mem hblock) _ hcallee)

theorem HirModule.ReachedFrom.calls {caller callee : FunctionId} (h : hir.ReachedFrom roots caller)
    (hcalls : hir.Calls caller callee) : hir.ReachedFrom roots callee := by
  obtain ⟨root, hroot, hreach⟩ := h
  exact ⟨root, hroot, hreach.tail hcalls⟩

theorem ascending_ext {left right : List BlockId}
    (hleft : left.Pairwise fun b c => b.index < c.index)
    (hright : right.Pairwise fun b c => b.index < c.index)
    (hmem : ∀ b, b ∈ left ↔ b ∈ right) : left = right := by
  have hne : ∀ {b c : BlockId}, b.index < c.index → b ≠ c := by
    rintro b c hlt rfl
    exact Nat.lt_irrefl _ hlt
  have hperm : left.Perm right :=
    (List.perm_ext_iff_of_nodup (hleft.imp hne) (hright.imp hne)).2 hmem
  refine List.Perm.eq_of_pairwise (fun b c _ _ hbc hcb => ?_) hleft hright hperm
  omega

theorem mergeSort_ascending {blocks : List BlockId} (hnodup : blocks.Nodup) :
    (blocks.mergeSort fun left right => decide (left.index ≤ right.index)).Pairwise
      fun b c => b.index < c.index :=
  mergeSort_key_ascending BlockId.index (hnodup.map BlockId.index_injective)

/-! ## The union builds an exact selection -/

theorem mem_rowsOf {row : HirBlockLinkFacts} :
    row ∈ facts.rowsOf seen ↔ ∃ b, .inr b ∈ seen ∧ facts.factsForBlock b = some row := by
  rw [HirModuleLinkFacts.rowsOf, List.mem_filterMap]
  constructor
  · rintro ⟨f | b, hin, hrow⟩
    · cases hrow
    · exact ⟨b, hin, hrow⟩
  · rintro ⟨b, hin, hrow⟩
    exact ⟨.inr b, hin, hrow⟩

theorem rowsOf_nodup (hfacts : ModuleFacts hir side facts) (hnodup : seen.Nodup) :
    ((facts.rowsOf seen).map HirBlockLinkFacts.blockId).Nodup := by
  rw [HirModuleLinkFacts.rowsOf, List.map_filterMap]
  have hnode : ∀ (node : LinkNode) (b : BlockId),
      b ∈ Option.map HirBlockLinkFacts.blockId (node.getRight?.bind facts.factsForBlock) →
        node = .inr b := by
    rintro (f | c) b hb
    · cases hb
    · obtain ⟨row, hrow, rfl⟩ := Option.map_eq_some_iff.1 hb
      exact congrArg Sum.inr (hfacts.factsForBlock_iff.1 hrow).2.symm
  exact hnodup.filterMap fun node other b hb hb' => (hnode node b hb).trans (hnode other b hb').symm

theorem Uniting.rowsOf_exact (hfacts : ModuleFacts hir side facts) (hdisjoint : hir.DisjointFlow)
    (h : Uniting hir facts roots seen [] state) {row : HirBlockLinkFacts}
    (hrow : row ∈ facts.rowsOf seen) :
    ∃ function ∈ hir.functions, .inl function.id ∈ seen ∧ hir.Reaches function.entry row.blockId ∧
      ∃ block, RowExact hir side function.id row block := by
  obtain ⟨b, hb, hfound⟩ := mem_rowsOf.1 hrow
  obtain ⟨row', function, block, hrow', hfunction, hin, hreach, rfl, hexact⟩ :=
    h.row hfacts hdisjoint (.inl hb)
  cases hfound.symm.trans hrow'
  exact ⟨function, hfunction, hin, hreach, block, hexact⟩

theorem Uniting.mem_blocksByFunction (hvalid : hir.Validated side)
    (hfacts : ModuleFacts hir side facts) (hdisjoint : hir.DisjointFlow)
    (h : Uniting hir facts roots seen [] state) (hempty : state.blockWorklist = [])
    {function : HirFunction} (hfunction : function ∈ hir.functions)
    (hseen : .inl function.id ∈ seen) (b : BlockId) :
    b ∈ state.blocksByFunction function.id ↔ hir.Reaches function.entry b := by
  rw [h.blocksByFunction, List.mem_map]
  constructor
  · rintro ⟨row, hrow, rfl⟩
    obtain ⟨hrow, howner⟩ := List.mem_filter.1 hrow
    obtain ⟨owner, hmem, -, hreach, block, hexact⟩ := h.rowsOf_exact hfacts hdisjoint hrow
    have hid : row.functionId = function.id := of_decide_eq_true howner
    rw [function_eq_of_id hvalid hfunction hmem (hid.symm.trans hexact.owner)]
    exact hreach
  · intro hreach
    obtain ⟨row, block, hrow, rfl, hexact⟩ := row_of_seen hfacts hfunction hreach hdisjoint
    have hin := h.sees_blocks hfacts hdisjoint hempty hfunction hseen hreach
    exact ⟨row, List.mem_filter.2 ⟨mem_rowsOf.2 ⟨_, hin, hrow⟩, decide_eq_true hexact.owner⟩, rfl⟩

theorem Uniting.visitedFunctionOrder_nodup (h : Uniting hir facts roots seen [] state) :
    state.visitedFunctionOrder.Nodup := by
  rw [h.order]
  refine h.exploring.nodup.filterMap fun node other f hf hf' => ?_
  rw [Option.mem_def, Sum.getLeft?_eq_some_iff] at hf hf'
  rw [hf, hf']

theorem Uniting.selectionExact (hvalid : hir.Validated side)
    (hfacts : ModuleFacts hir side facts) (hdisjoint : hir.DisjointFlow)
    (h : Uniting hir facts roots seen [] state) (hempty : state.blockWorklist = []) :
    SelectionExact hir roots state.finish.backendSelection := by
  have hids : state.finish.backendSelection.blocksByFunction.map
      HirSelectedFunctionBlocks.functionId = state.visitedFunctionOrder := by
    show List.map _ (List.map _ state.visitedFunctionOrder) = _
    rw [List.map_map]
    exact List.map_id _
  refine ⟨fun f => h.mem_functions hvalid hfacts hdisjoint hempty f, fun b => ?_, ?_, fun f => ?_,
    fun row hrow => ?_⟩
  · refine (h.mem_blocks hfacts hdisjoint hempty b).trans (exists_congr fun function => ?_)
    rw [h.mem_functions hvalid hfacts hdisjoint hempty]
  · rw [hids]
    exact h.visitedFunctionOrder_nodup
  · rw [hids, h.visitedFunctionOrder_mem, ← h.visitedFunctions]
    exact h.mem_functions hvalid hfacts hdisjoint hempty f
  · obtain ⟨f, hf, rfl⟩ := List.mem_map.1 hrow
    have hseen := (h.visitedFunctionOrder_mem f).1 hf
    obtain ⟨function, hfunction, rfl⟩ := List.mem_map.1 (h.knownFunctions f (.inl hseen))
    have hperm := List.mergeSort_perm (state.blocksByFunction function.id)
      fun left right => decide (left.index ≤ right.index)
    have hnodup : (state.blocksByFunction function.id).Nodup := by
      rw [h.blocksByFunction]
      exact (rowsOf_nodup hfacts h.exploring.nodup).sublist (List.filter_sublist.map _)
    refine ⟨function, hfunction, rfl, mergeSort_ascending hnodup, fun b => ?_⟩
    exact hperm.mem_iff.trans
      (h.mem_blocksByFunction hvalid hfacts hdisjoint hempty hfunction hseen b)

/-! ## Validation accepts an exact selection -/

variable {selection : HirBackendSelection}

theorem collectReachableBlocks_exact (hvalid : hir.Validated side) {function : HirFunction}
    (hfunction : function ∈ hir.functions) :
    ∃ blocks, hir.collectReachableBlocks function.entry = some blocks ∧ blocks.Nodup ∧
      ∀ b, b ∈ blocks ↔ hir.Reaches function.entry b := by
  have hsome : (hir.flowGraph.collect [] [function.entry]).isSome := by
    refine FiniteGraph.collect_isSome (P := hir.Reaches function.entry) (fun b hb => ?_)
      fun b hb => ?_
    · obtain ⟨block, hblock⟩ := Option.isSome_iff_exists.1
        (hvalid.reaches_block (hvalid.entries function hfunction) hb)
      have hnext := HirModule.flowGraph_successors hblock
      exact ⟨_, hnext, fun c hc => hb.tail ⟨_, hnext, hc⟩⟩
    · rw [List.mem_singleton.1 hb]
      exact .refl
  obtain ⟨blocks, hblocks⟩ := Option.isSome_iff_exists.1 hsome
  exact ⟨blocks, hblocks, FiniteGraph.collect_nodup hblocks,
    fun b => FiniteGraph.collect_mem_iff hblocks⟩

theorem SelectionExact.blocksForFunction (h : SelectionExact hir roots selection)
    (hvalid : hir.Validated side) {function : HirFunction} (hfunction : function ∈ hir.functions)
    (hreached : hir.ReachedFrom roots function.id) :
    ∃ blocks, selection.blocksForFunction function.id = some blocks ∧
      (blocks.Pairwise fun b c => b.index < c.index) ∧
      ∀ b, b ∈ blocks ↔ hir.Reaches function.entry b := by
  obtain ⟨row, hrow, hid⟩ := List.mem_map.1 ((h.listed function.id).2 hreached)
  obtain ⟨found, hfound⟩ := Option.isSome_iff_exists.1
    (List.find?_isSome (p := fun row => decide (row.functionId = function.id)).2
      ⟨row, hrow, decide_eq_true hid⟩)
  have hkey := List.find?_some hfound
  have hfoundId : found.functionId = function.id := of_decide_eq_true hkey
  obtain ⟨owner, howner, hownerId, hascending, hmem⟩ :=
    h.rows found (List.mem_of_find?_eq_some hfound)
  cases function_eq_of_id hvalid hfunction howner (hfoundId.symm.trans hownerId.symm)
  refine ⟨found.blocks, ?_, hascending, hmem⟩
  rw [HirBackendSelection.blocksForFunction, hfound]
  rfl

/-- The blocks of a selected function are assigned one after another. -/
theorem validateBlocks_ok (h : SelectionExact hir roots selection) {function : HirFunction}
    (hvalid : hir.Validated side) (hfunction : function ∈ hir.functions)
    (hreached : hir.ReachedFrom roots function.id) {blocks : List BlockId}
    {assignedBlocks : Finset BlockId} (hnodup : blocks.Nodup)
    (hreach : ∀ b ∈ blocks, hir.Reaches function.entry b)
    (hfresh : ∀ b ∈ blocks, b ∉ assignedBlocks) :
    ∃ assigned, blocks.foldlM (selection.validateBlock hir function.id) assignedBlocks =
      .ok assigned ∧ ∀ b, b ∈ assigned ↔ b ∈ assignedBlocks ∨ b ∈ blocks := by
  induction blocks generalizing assignedBlocks with
  | nil => exact ⟨assignedBlocks, rfl, fun b => (or_iff_left List.not_mem_nil).symm⟩
  | cons blockId rest ih =>
      obtain ⟨hnew, hrest⟩ := List.nodup_cons.1 hnodup
      obtain ⟨block, hblock⟩ := Option.isSome_iff_exists.1
        (hvalid.reaches_block (hvalid.entries function hfunction)
          (hreach blockId List.mem_cons_self))
      have hselected : block.localCalls.find?
          (fun callee => decide (callee ∉ selection.functions)) = none := by
        refine List.find?_eq_none.2 fun callee hcallee hout => of_decide_eq_true hout ?_
        have hid := HirModule.blockById_id hblock
        refine (h.functions callee).2 (hreached.calls ⟨function, hfunction, rfl, block, ?_, ?_,
          hcallee⟩)
        · rw [hid]
          exact hreach blockId List.mem_cons_self
        · rw [hid]
          exact hblock
      have hstep : selection.validateBlock hir function.id assignedBlocks blockId =
          .ok (insert blockId assignedBlocks) := by
        rw [HirBackendSelection.validateBlock, if_neg (hfresh blockId List.mem_cons_self)]
        simp only [hblock, hselected]
      obtain ⟨assigned, hrun, hmem⟩ := @ih (insert blockId assignedBlocks) hrest
        (fun b hb => hreach b (List.mem_cons_of_mem _ hb)) fun b hb hin => by
          rcases Finset.mem_insert.1 hin with rfl | hin
          · exact hnew hb
          · exact hfresh b (List.mem_cons_of_mem _ hb) hin
      refine ⟨assigned, ?_, fun b => ?_⟩
      · rw [List.foldlM_cons, hstep, ok_bind]
        exact hrun
      · rw [hmem, Finset.mem_insert, List.mem_cons, or_assoc, or_left_comm]

theorem validateFunction_ok (h : SelectionExact hir roots selection) {function : HirFunction}
    (hvalid : hir.Validated side) (hfunction : function ∈ hir.functions)
    (hreached : hir.ReachedFrom roots function.id) {assignedBlocks : Finset BlockId}
    (hfresh : ∀ b, hir.Reaches function.entry b → b ∉ assignedBlocks) :
    ∃ assigned, selection.validateFunction hir assignedBlocks function = .ok assigned ∧
      ∀ b, b ∈ assigned ↔ b ∈ assignedBlocks ∨ hir.Reaches function.entry b := by
  obtain ⟨blocks, hblocks, hascending, hmem⟩ := h.blocksForFunction hvalid hfunction hreached
  obtain ⟨actual, hactual, hnodup, hmem'⟩ := collectReachableBlocks_exact hvalid hfunction
  have hsame : (actual.mergeSort fun left right => decide (left.index ≤ right.index)) = blocks := by
    refine ascending_ext (mergeSort_ascending hnodup) hascending fun b => ?_
    rw [(List.mergeSort_perm actual _).mem_iff, hmem', hmem]
  have hdistinct : blocks.Nodup := by
    rw [← hsame]
    exact (List.mergeSort_perm actual _).nodup_iff.2 hnodup
  obtain ⟨assigned, hrun, hassigned⟩ := validateBlocks_ok h hvalid hfunction hreached hdistinct
    (fun b hb => (hmem b).1 hb) fun b hb => hfresh b ((hmem b).1 hb)
  refine ⟨assigned, ?_, fun b => (hassigned b).trans (or_congr_right (hmem b))⟩
  rw [HirBackendSelection.validateFunction, hblocks]
  simp only [hactual, hsame, ne_eq, not_true_eq_false, if_false]
  exact hrun

theorem validateFunctions_ok (h : SelectionExact hir roots selection) (hvalid : hir.Validated side)
    (hdisjoint : hir.DisjointFlow) {functions : List HirFunction}
    {assignedBlocks : Finset BlockId} (hnodup : functions.Nodup)
    (hfunctions : ∀ function ∈ functions,
      function ∈ hir.functions ∧ hir.ReachedFrom roots function.id)
    (hfresh : ∀ function ∈ functions, ∀ b, hir.Reaches function.entry b → b ∉ assignedBlocks) :
    ∃ assigned, functions.foldlM (selection.validateFunction hir) assignedBlocks = .ok assigned ∧
      ∀ b, b ∈ assigned ↔
        b ∈ assignedBlocks ∨ ∃ function ∈ functions, hir.Reaches function.entry b := by
  induction functions generalizing assignedBlocks with
  | nil =>
      refine ⟨assignedBlocks, rfl, fun b => (or_iff_left ?_).symm⟩
      exact fun ⟨_, hin, _⟩ => List.not_mem_nil hin
  | cons function rest ih =>
      obtain ⟨hnew, hrest⟩ := List.nodup_cons.1 hnodup
      obtain ⟨hfunction, hreached⟩ := hfunctions function List.mem_cons_self
      obtain ⟨middle, hstep, hmiddle⟩ := validateFunction_ok h hvalid hfunction hreached
        (hfresh function List.mem_cons_self)
      have hkept : ∀ other ∈ rest, ∀ b, hir.Reaches other.entry b → b ∉ middle := by
        intro other hother b hreach hin
        rcases (hmiddle b).1 hin with hin | hin
        · exact hfresh other (List.mem_cons_of_mem _ hother) b hreach hin
        · have hmem := (hfunctions other (List.mem_cons_of_mem _ hother)).1
          exact hnew (hdisjoint function hfunction other hmem b hin hreach ▸ hother)
      obtain ⟨assigned, hrun, hassigned⟩ := ih hrest
        (fun other hother => hfunctions other (List.mem_cons_of_mem _ hother)) hkept
      refine ⟨assigned, ?_, fun b => ?_⟩
      · rw [List.foldlM_cons, hstep, ok_bind]
        exact hrun
      · rw [hassigned, hmiddle, List.exists_mem_cons_iff, or_assoc]

theorem SelectionExact.validateForHir (h : SelectionExact hir roots selection)
    (hvalid : hir.Validated side) (hdisjoint : hir.DisjointFlow)
    (hroots : ∀ root ∈ roots, root ∈ hir.functions.map HirFunction.id) :
    selection.validateForHir hir = .ok () := by
  have hselected : ∀ function ∈ hir.functions.filter
      (fun function => decide (function.id ∈ selection.functions)),
      function ∈ hir.functions ∧ hir.ReachedFrom roots function.id := by
    intro function hin
    obtain ⟨hmem, hid⟩ := List.mem_filter.1 hin
    exact ⟨hmem, (h.functions _).1 (of_decide_eq_true hid)⟩
  have hsublist : (hir.functions.filter
      (fun function => decide (function.id ∈ selection.functions))).Sublist hir.functions :=
    List.filter_sublist
  have hcard : (hir.functions.filter
      (fun function => decide (function.id ∈ selection.functions))).length =
        selection.functions.card := by
    have hnodup := (hsublist.map HirFunction.id).nodup hvalid.functions
    have hset : ((hir.functions.filter
        (fun function => decide (function.id ∈ selection.functions))).map
          HirFunction.id).toFinset = selection.functions := by
      ext f
      rw [List.mem_toFinset, List.mem_map]
      constructor
      · rintro ⟨function, hin, rfl⟩
        exact (h.functions _).2 (hselected function hin).2
      · intro hf
        obtain ⟨function, hfunction, rfl⟩ := ((h.functions f).1 hf).known hvalid hroots
        exact ⟨function, List.mem_filter.2 ⟨hfunction, decide_eq_true hf⟩, rfl⟩
    have hlength := List.toFinset_card_of_nodup hnodup
    rw [hset, List.length_map] at hlength
    exact hlength.symm
  obtain ⟨assigned, hrun, hassigned⟩ := validateFunctions_ok h hvalid hdisjoint
    (hsublist.nodup hvalid.functions.of_map) hselected
    fun _ _ b _ => Finset.notMem_empty b
  have hblocks : assigned = selection.blocks := by
    ext b
    rw [hassigned, h.blocks, or_iff_right (Finset.notMem_empty b)]
    constructor
    · rintro ⟨function, hin, hreach⟩
      obtain ⟨hmem, hreached⟩ := hselected function hin
      exact ⟨function, hmem, hreached, hreach⟩
    · rintro ⟨function, hmem, hreached, hreach⟩
      exact ⟨function, List.mem_filter.2 ⟨hmem, decide_eq_true ((h.functions _).2 hreached)⟩,
        hreach⟩
  rw [HirBackendSelection.validateForHir, reachabilityIndex_ok hvalid, ok_bind]
  dsimp only
  rw [if_neg (not_not.2 hcard), hrun, ok_bind, if_neg (not_not.2 hblocks)]

end Moth.Hir
