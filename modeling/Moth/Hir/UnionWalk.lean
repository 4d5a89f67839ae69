import Moth.Hir.ModuleFacts

/-!
# The union of link facts

The union walks a graph whose nodes are functions and blocks: a function leads
to its entry block, a block to the functions it records calls of and to its
successors. Every block it meets belongs to a function it has visited, so the
walk never fails, and it ends because each node is visited once.
-/

namespace Moth.Hir

open Moth.Lib Moth.Source

abbrev LinkNode : Type := FunctionId ⊕ BlockId

theorem ModuleFacts.factsFor_iff {hir : HirModule} {side : HirSideFacts}
    {facts : HirModuleLinkFacts} (h : ModuleFacts hir side facts) {functionId : FunctionId}
    {row : HirFunctionLinkFacts} :
    facts.factsFor functionId = some row ↔ row ∈ facts.functions ∧ row.functionId = functionId := by
  rw [HirModuleLinkFacts.factsFor, binarySearchByKey_iff h.functionsAscending,
    FunctionId.index_injective.eq_iff]

theorem ModuleFacts.factsForBlock_iff {hir : HirModule} {side : HirSideFacts}
    {facts : HirModuleLinkFacts} (h : ModuleFacts hir side facts) {blockId : BlockId}
    {row : HirBlockLinkFacts} :
    facts.factsForBlock blockId = some row ↔ row ∈ facts.blocks ∧ row.blockId = blockId := by
  rw [HirModuleLinkFacts.factsForBlock, binarySearchByKey_iff h.blocksAscending,
    BlockId.index_injective.eq_iff]

/-- What a node leads to. -/
def HirModuleLinkFacts.next (facts : HirModuleLinkFacts) : LinkNode → Option (List LinkNode)
  | .inl functionId => (facts.factsFor functionId).map fun row => [.inr row.entryBlock]
  | .inr blockId => (facts.factsForBlock blockId).map fun row =>
      row.directUserCalls.map .inl ++ row.successorBlocks.map .inr

def HirModuleLinkFacts.linkGraph (facts : HirModuleLinkFacts) : FiniteGraph LinkNode where
  nodes := facts.functions.map (fun row => .inl row.functionId) ++
    facts.blocks.map fun row => .inr row.blockId
  successors := facts.next
  mem_nodes := by
    rintro (functionId | blockId) next h
    · obtain ⟨row, hrow, -⟩ := Option.map_eq_some_iff.1 h
      obtain ⟨hmem, hkey⟩ := binarySearchIn_sound hrow
      rw [← FunctionId.index_injective hkey]
      exact List.mem_append_left _ (List.mem_map_of_mem hmem)
    · obtain ⟨row, hrow, -⟩ := Option.map_eq_some_iff.1 h
      obtain ⟨hmem, hkey⟩ := binarySearchIn_sound hrow
      rw [← BlockId.index_injective hkey]
      exact List.mem_append_right _ (List.mem_map_of_mem (f := fun row => Sum.inr row.blockId) hmem)

variable {hir : HirModule} {side : HirSideFacts} {facts : HirModuleLinkFacts}

theorem edge_function {functionId : FunctionId} {row : HirFunctionLinkFacts}
    (hrow : facts.factsFor functionId = some row) (node : LinkNode) :
    facts.linkGraph.Edge (.inl functionId) node ↔ node = .inr row.entryBlock := by
  have hnext : facts.linkGraph.successors (.inl functionId) = some [.inr row.entryBlock] := by
    show (facts.factsFor functionId).map _ = _
    rw [hrow]
    rfl
  constructor
  · rintro ⟨next, hsome, hin⟩
    cases hnext.symm.trans hsome
    exact List.mem_singleton.1 hin
  · rintro rfl
    exact ⟨_, hnext, List.mem_singleton_self _⟩

theorem edge_block {blockId : BlockId} {row : HirBlockLinkFacts}
    (hrow : facts.factsForBlock blockId = some row) (node : LinkNode) :
    facts.linkGraph.Edge (.inr blockId) node ↔
      node ∈ row.directUserCalls.map Sum.inl ++ row.successorBlocks.map Sum.inr := by
  have hnext : facts.linkGraph.successors (.inr blockId) =
      some (row.directUserCalls.map .inl ++ row.successorBlocks.map .inr) := by
    show (facts.factsForBlock blockId).map _ = _
    rw [hrow]
    rfl
  constructor
  · rintro ⟨next, hsome, hin⟩
    cases hnext.symm.trans hsome
    exact hin
  · exact fun hin => ⟨_, hnext, hin⟩

/-! ## What the walk maintains -/

/-- The nodes that wait: functions in one list, blocks in the other. -/
def waiting (functions : List FunctionId) (blocks : List BlockId) : List LinkNode :=
  functions.map .inl ++ blocks.map .inr

theorem mem_waiting_inl {functions : List FunctionId} {blocks : List BlockId}
    {functionId : FunctionId} : .inl functionId ∈ waiting functions blocks ↔
      functionId ∈ functions := by
  simp [waiting]

theorem mem_waiting_inr {functions : List FunctionId} {blocks : List BlockId}
    {blockId : BlockId} : .inr blockId ∈ waiting functions blocks ↔ blockId ∈ blocks := by
  simp [waiting]

theorem length_waiting (functions : List FunctionId) (blocks : List BlockId) :
    (waiting functions blocks).length = functions.length + blocks.length := by
  rw [waiting, List.length_append, List.length_map, List.length_map]

/-- The rows of the blocks among some nodes, in order. -/
def HirModuleLinkFacts.rowsOf (facts : HirModuleLinkFacts) (seen : List LinkNode) :
    List HirBlockLinkFacts :=
  seen.filterMap fun node => node.getRight?.bind facts.factsForBlock

/-- A function whose own provenance has the class that a project context gives. -/
def HirModuleLinkFacts.projectContextFunction (facts : HirModuleLinkFacts)
    (functionId : FunctionId) : Option ReachableProjectContextFunction :=
  (facts.factsFor functionId).bind fun row =>
    if containsClass row.syntheticInterfaceProvenance .ProjectContext then
      some ⟨functionId, row.syntheticInterfaceProvenance, row.declarationSpan⟩
    else none

/-- A block that the function reaches calls the other function. -/
def HirModule.Calls (hir : HirModule) (caller callee : FunctionId) : Prop :=
  ∃ function ∈ hir.functions, function.id = caller ∧ ∃ block, hir.Reaches function.entry block.id ∧
    hir.blockById block.id = some block ∧ callee ∈ block.localCalls

/-- The walk after seeing some nodes, with functions that wait beside the blocks of the state. -/
structure Uniting (hir : HirModule) (facts : HirModuleLinkFacts) (roots : List FunctionId)
    (seen : List LinkNode) (functions : List FunctionId) (state : UnionState) : Prop where
  exploring : facts.linkGraph.Exploring (roots.map .inl) seen
    (waiting functions state.blockWorklist)
  order : state.visitedFunctionOrder = seen.filterMap Sum.getLeft?
  visitedFunctions : ∀ f, f ∈ state.visitedFunctions ↔ .inl f ∈ seen
  visitedBlocks : ∀ b, b ∈ state.visitedBlocks ↔ .inr b ∈ seen
  blocksByFunction : ∀ f, state.blocksByFunction f =
    ((facts.rowsOf seen).filter fun row => decide (row.functionId = f)).map
      HirBlockLinkFacts.blockId
  uses : state.uses = ((facts.rowsOf seen).map HirBlockLinkFacts.directUses).foldl
    ReachedUses.merge .empty
  provenance : ∀ member, member ∈ state.reachableFunctionProvenance ↔
    ∃ f, .inl f ∈ seen ∧ ∃ row, facts.factsFor f = some row ∧
      member ∈ row.syntheticInterfaceProvenance
  projectContext : state.firstProjectContextFunction =
    state.visitedFunctionOrder.findSome? facts.projectContextFunction
  discovered : DiscoveryOrder hir.Calls roots state.visitedFunctionOrder functions
  knownFunctions : ∀ f, .inl f ∈ seen ∨ f ∈ functions → f ∈ hir.functions.map HirFunction.id
  owned : ∀ b, .inr b ∈ seen ∨ b ∈ state.blockWorklist → ∃ function ∈ hir.functions,
    .inl function.id ∈ seen ∧ hir.Reaches function.entry b

theorem Uniting.start {roots : List FunctionId}
    (hroots : ∀ root ∈ roots, root ∈ hir.functions.map HirFunction.id) :
    Uniting hir facts roots [] roots (.start roots) where
  exploring := by
    rw [waiting]
    show facts.linkGraph.Exploring (roots.map .inl) [] (roots.map .inl ++ [])
    rw [List.append_nil]
    exact .start _ _
  order := rfl
  visitedFunctions f := iff_of_false (Finset.notMem_empty f) List.not_mem_nil
  visitedBlocks b := iff_of_false (Finset.notMem_empty b) List.not_mem_nil
  blocksByFunction _ := rfl
  uses := rfl
  provenance member := iff_of_false (Finset.notMem_empty member)
    fun ⟨_, h, _⟩ => List.not_mem_nil h
  projectContext := rfl
  discovered := .start _ _
  knownFunctions f h := hroots f (h.resolve_left List.not_mem_nil)
  owned b h := absurd (h.resolve_left List.not_mem_nil) List.not_mem_nil

theorem rowsOf_concat_inl (facts : HirModuleLinkFacts) (seen : List LinkNode) (f : FunctionId) :
    facts.rowsOf (seen ++ [.inl f]) = facts.rowsOf seen := by
  rw [HirModuleLinkFacts.rowsOf, List.filterMap_append]
  exact List.append_nil _

theorem rowsOf_concat_inr {seen : List LinkNode} {blockId : BlockId} {row : HirBlockLinkFacts}
    (hrow : facts.factsForBlock blockId = some row) :
    facts.rowsOf (seen ++ [.inr blockId]) = facts.rowsOf seen ++ [row] := by
  rw [HirModuleLinkFacts.rowsOf, List.filterMap_append]
  refine congrArg (_ ++ ·) ?_
  simp [hrow]

/-! ## Functions -/

variable {roots functions : List FunctionId} {seen : List LinkNode} {state : UnionState}

theorem Uniting.visitedFunctionOrder_mem (h : Uniting hir facts roots seen functions state)
    (f : FunctionId) : f ∈ state.visitedFunctionOrder ↔ .inl f ∈ seen := by
  rw [h.order, List.mem_filterMap]
  constructor
  · rintro ⟨g | b, hin, hleft⟩
    · cases hleft
      exact hin
    · cases hleft
  · exact fun hin => ⟨.inl f, hin, rfl⟩

theorem visitFunction_unites (hfacts : ModuleFacts hir side facts) {functionId : FunctionId}
    (h : Uniting hir facts roots seen (functionId :: functions) state) :
    ∃ next, visitFunction facts functionId state = .ok next ∧
      next.functionWorklist = state.functionWorklist ∧ ∃ seen',
      Uniting hir facts roots seen' functions next ∧
      facts.linkGraph.room seen' (waiting functions next.blockWorklist) <
        facts.linkGraph.room seen (waiting (functionId :: functions) state.blockWorklist) := by
  have hpending : ∀ c : LinkNode, c ∈ waiting (functionId :: functions) state.blockWorklist ↔
      c = .inl functionId ∨ c ∈ waiting functions state.blockWorklist := fun c => List.mem_cons
  have hfewer : ∀ f, .inl f ∈ seen ∨ f ∈ functions → f ∈ hir.functions.map HirFunction.id :=
    fun f hf => h.knownFunctions f (hf.imp_right (List.mem_cons_of_mem _))
  rw [visitFunction]
  by_cases hvisited : functionId ∈ state.visitedFunctions
  · rw [if_pos hvisited]
    have hseen := (h.visitedFunctions functionId).1 hvisited
    refine ⟨state, rfl, rfl, seen, ⟨?_, h.order, h.visitedFunctions, h.visitedBlocks,
      h.blocksByFunction, h.uses, h.provenance, h.projectContext, h.discovered.skip ?_, hfewer,
      h.owned⟩, ?_⟩
    · exact h.exploring.skip hseen hpending
    · exact (h.visitedFunctionOrder_mem functionId).2 hseen
    · rw [FiniteGraph.room, FiniteGraph.room, length_waiting, length_waiting, List.length_cons]
      omega
  · rw [if_neg hvisited]
    obtain ⟨function, hfunction, hid⟩ :=
      List.mem_map.1 (h.knownFunctions functionId (.inr List.mem_cons_self))
    have hrow : facts.factsFor functionId = some (function.linkFacts side) :=
      hfacts.factsFor_iff.2 ⟨(hfacts.functions _).2 ⟨function, hfunction, rfl⟩, hid⟩
    have hnew : .inl functionId ∉ seen := fun hin =>
      hvisited ((h.visitedFunctions functionId).2 hin)
    have hmem (f : FunctionId) : Sum.inl f ∈ seen ++ [.inl functionId] ↔
        f = functionId ∨ .inl f ∈ seen := by
      rw [List.mem_append, List.mem_singleton, Sum.inl.injEq, or_comm]
    have hmem' (b : BlockId) : Sum.inr b ∈ seen ++ [.inl functionId] ↔ .inr b ∈ seen := by
      rw [List.mem_append, List.mem_singleton, or_iff_left Sum.inr_ne_inl]
    simp only [hrow]
    refine ⟨_, rfl, rfl, seen ++ [.inl functionId], ⟨?_, ?_, fun f => ?_, fun b => ?_, fun f => ?_,
      ?_, fun member => ?_, ?_, h.discovered.visit ?_, fun f hf => ?_, fun b hb => ?_⟩, ?_⟩
    · have hpushed : ∀ c ∈ [(.inr function.entry : LinkNode)],
          facts.linkGraph.Edge (.inl functionId) c :=
        fun c hc => (edge_function hrow c).2 (List.mem_singleton.1 hc)
      refine h.exploring.visit hnew hpending hpushed (fun c hedge => ?_) fun c => ?_
      · exact .inr (List.mem_singleton.2 ((edge_function hrow c).1 hedge))
      · show c ∈ functions.map Sum.inl ++ (state.blockWorklist ++ [function.entry]).map Sum.inr ↔ _
        rw [List.map_append, ← List.append_assoc]
        exact List.mem_append
    · rw [List.filterMap_append, ← h.order]
      rfl
    · rw [Finset.mem_insert, h.visitedFunctions, hmem]
    · rw [h.visitedBlocks, hmem']
    · rw [h.blocksByFunction, rowsOf_concat_inl]
    · rw [h.uses, rowsOf_concat_inl]
    · rw [Finset.mem_union, h.provenance]
      constructor
      · rintro (⟨f, hf, row, hfrow, hin⟩ | hin)
        · exact ⟨f, (hmem f).2 (.inr hf), row, hfrow, hin⟩
        · exact ⟨functionId, (hmem functionId).2 (.inl rfl), _, hrow, hin⟩
      · rintro ⟨f, hf, row, hfrow, hin⟩
        rcases (hmem f).1 hf with rfl | hf
        · cases hrow.symm.trans hfrow
          exact .inr hin
        · exact .inl ⟨f, hf, row, hfrow, hin⟩
    · rw [List.findSome?_append, ← h.projectContext]
      cases state.firstProjectContextFunction with
      | some found => rfl
      | none => simp [HirModuleLinkFacts.projectContextFunction, hrow]
    · exact fun hin => hnew ((h.visitedFunctionOrder_mem functionId).1 hin)
    · rcases hf with hf | hf
      · rcases (hmem f).1 hf with rfl | hf
        · exact h.knownFunctions f (.inr List.mem_cons_self)
        · exact hfewer f (.inl hf)
      · exact hfewer f (.inr hf)
    · have hold : .inr b ∈ seen ∨ b ∈ state.blockWorklist → ∃ function ∈ hir.functions,
          .inl function.id ∈ seen ++ [.inl functionId] ∧ hir.Reaches function.entry b := by
        intro hb
        obtain ⟨other, hother, hin, hreach⟩ := h.owned b hb
        exact ⟨other, hother, (hmem other.id).2 (.inr hin), hreach⟩
      rcases hb with hb | hb
      · exact hold (.inl ((hmem' b).1 hb))
      · rcases List.mem_append.1 hb with hb | hb
        · exact hold (.inr hb)
        · rw [List.mem_singleton.1 hb]
          exact ⟨function, hfunction, (hmem function.id).2 (.inl hid), .refl⟩
    · have hnext : facts.linkGraph.successors (.inl functionId) = some [.inr function.entry] := by
        show (facts.factsFor functionId).map _ = _
        rw [hrow]
        rfl
      refine FiniteGraph.room_visit hnext hnew ?_
      show (waiting functions (state.blockWorklist ++ [function.entry])).length ≤
        (waiting functions state.blockWorklist).length + 1
      rw [length_waiting, length_waiting, List.length_append, List.length_singleton]
      omega

theorem drainFunctions_unites (hfacts : ModuleFacts hir side facts)
    (h : Uniting hir facts roots seen functions state) :
    ∃ next, drainFunctions facts functions state = .ok next ∧
      next.functionWorklist = state.functionWorklist ∧ ∃ seen',
      Uniting hir facts roots seen' [] next ∧
      facts.linkGraph.room seen' (waiting [] next.blockWorklist) + functions.length ≤
        facts.linkGraph.room seen (waiting functions state.blockWorklist) := by
  induction functions generalizing seen state with
  | nil => exact ⟨state, rfl, rfl, seen, h, Nat.le_refl _⟩
  | cons functionId rest ih =>
      obtain ⟨middle, hvisit, hkept, seen₁, h₁, hroom₁⟩ := visitFunction_unites hfacts h
      obtain ⟨next, hdrain, hkept', seen₂, h₂, hroom₂⟩ := ih h₁
      refine ⟨next, ?_, hkept'.trans hkept, seen₂, h₂, ?_⟩
      · rw [drainFunctions, hvisit]
        exact hdrain
      · rw [List.length_cons]
        omega

/-! ## Blocks -/

theorem Uniting.row (hfacts : ModuleFacts hir side facts) (hdisjoint : hir.DisjointFlow)
    (h : Uniting hir facts roots seen functions state) {blockId : BlockId}
    (hb : .inr blockId ∈ seen ∨ blockId ∈ state.blockWorklist) :
    ∃ row function block, facts.factsForBlock blockId = some row ∧ function ∈ hir.functions ∧
      .inl function.id ∈ seen ∧ hir.Reaches function.entry blockId ∧ row.blockId = blockId ∧
      RowExact hir side function.id row block := by
  obtain ⟨function, hfunction, hin, hreach⟩ := h.owned blockId hb
  obtain ⟨row, hrow, rfl⟩ := hfacts.covered function hfunction blockId hreach
  obtain ⟨owner, howner, hreach', block, hexact⟩ := hfacts.rows row hrow
  cases hdisjoint function hfunction owner howner _ hreach hreach'
  exact ⟨row, function, block, hfacts.factsForBlock_iff.2 ⟨hrow, rfl⟩, hfunction, hin, hreach, rfl,
    hexact⟩

theorem RowExact.edge {function : FunctionId} {row : HirBlockLinkFacts} {block : HirBlock}
    (h : RowExact hir side function row block) {successor : BlockId}
    (hsuccessor : successor ∈ row.successorBlocks) : hir.flowGraph.Edge row.blockId successor := by
  rw [h.successors] at hsuccessor
  exact ⟨_, HirModule.flowGraph_successors h.found, hsuccessor⟩

theorem visitSelectedBlock_unites (hvalid : hir.Validated side)
    (hfacts : ModuleFacts hir side facts) (hdisjoint : hir.DisjointFlow) {blockId : BlockId}
    {rest : List BlockId} (hworklist : state.blockWorklist = blockId :: rest)
    (h : Uniting hir facts roots seen state.functionWorklist state) :
    ∃ next, visitSelectedBlock facts blockId { state with blockWorklist := rest } = .ok next ∧
      ∃ seen', Uniting hir facts roots seen' next.functionWorklist next ∧
      facts.linkGraph.room seen' (waiting next.functionWorklist next.blockWorklist) <
        facts.linkGraph.room seen (waiting state.functionWorklist state.blockWorklist) := by
  have hpending : ∀ c : LinkNode, c ∈ waiting state.functionWorklist state.blockWorklist ↔
      c = .inr blockId ∨ c ∈ waiting state.functionWorklist rest := by
    intro c
    rw [hworklist, waiting, waiting, List.map_cons, List.mem_append, List.mem_cons, List.mem_append,
      or_left_comm]
  have hrest : ∀ b, .inr b ∈ seen ∨ b ∈ rest → .inr b ∈ seen ∨ b ∈ state.blockWorklist :=
    fun b hb => hb.imp_right fun hb => hworklist ▸ List.mem_cons_of_mem _ hb
  have hlength : (waiting state.functionWorklist state.blockWorklist).length =
      (waiting state.functionWorklist rest).length + 1 := by
    rw [hworklist, length_waiting, length_waiting, List.length_cons, Nat.add_assoc]
  rw [visitSelectedBlock]
  by_cases hvisited : blockId ∈ state.visitedBlocks
  · rw [if_pos hvisited]
    refine ⟨_, rfl, seen, ⟨?_, h.order, h.visitedFunctions, h.visitedBlocks, h.blocksByFunction,
      h.uses, h.provenance, h.projectContext, h.discovered, h.knownFunctions,
      fun b hb => h.owned b (hrest b hb)⟩, ?_⟩
    · exact h.exploring.skip ((h.visitedBlocks blockId).1 hvisited) hpending
    · show facts.linkGraph.room seen (waiting state.functionWorklist rest) < _
      rw [FiniteGraph.room, FiniteGraph.room, hlength]
      omega
  · rw [if_neg hvisited]
    obtain ⟨row, function, block, hrow, hfunction, hin, hreach, hid, hexact⟩ :=
      h.row hfacts hdisjoint (.inr (hworklist ▸ List.mem_cons_self))
    have hnew : .inr blockId ∉ seen := fun hin => hvisited ((h.visitedBlocks blockId).2 hin)
    have howner : ¬row.functionId ∉ state.visitedFunctions := by
      rw [not_not, hexact.owner, h.visitedFunctions]
      exact hin
    have hmem (f : FunctionId) : Sum.inl f ∈ seen ++ [.inr blockId] ↔ .inl f ∈ seen := by
      rw [List.mem_append, List.mem_singleton, or_iff_left Sum.inl_ne_inr]
    have hmem' (b : BlockId) : Sum.inr b ∈ seen ++ [.inr blockId] ↔
        b = blockId ∨ .inr b ∈ seen := by
      rw [List.mem_append, List.mem_singleton, Sum.inr.injEq, or_comm]
    have hknown : ∀ callee ∈ row.directUserCalls, callee ∈ hir.functions.map HirFunction.id :=
      fun callee hcallee => hvalid.callees block (HirModule.blockById_mem hexact.found) callee
        (hexact.calls callee hcallee)
    simp only [hrow, if_neg howner]
    refine ⟨_, rfl, seen ++ [.inr blockId], ⟨?_, ?_, fun f => ?_, fun b => ?_, fun f => ?_, ?_,
      fun member => ?_, h.projectContext, h.discovered.push fun callee hcallee => ?_,
      fun f hf => ?_, fun b hb => ?_⟩, ?_⟩
    · have hpushed : ∀ c ∈ waiting
          (row.directUserCalls.filter fun called => decide (called ∉ state.visitedFunctions))
          (row.successorBlocks.filter fun successor =>
            decide (successor ∉ insert blockId state.visitedBlocks)),
          facts.linkGraph.Edge (.inr blockId) c := by
        rintro (f | b) hc
        · refine (edge_block hrow _).2 (List.mem_append_left _ (List.mem_map_of_mem ?_))
          exact List.mem_of_mem_filter (mem_waiting_inl.1 hc)
        · refine (edge_block hrow _).2 (List.mem_append_right _ (List.mem_map_of_mem ?_))
          exact List.mem_of_mem_filter (mem_waiting_inr.1 hc)
      refine h.exploring.visit hnew hpending hpushed ?_ ?_
      · intro c hedge
        rcases List.mem_append.1 ((edge_block hrow c).1 hedge) with hc | hc
        · obtain ⟨f, hf, rfl⟩ := List.mem_map.1 hc
          by_cases hseen : f ∈ state.visitedFunctions
          · exact .inl ((hmem f).2 ((h.visitedFunctions f).1 hseen))
          · exact .inr (mem_waiting_inl.2 (List.mem_filter.2 ⟨hf, decide_eq_true hseen⟩))
        · obtain ⟨b, hb, rfl⟩ := List.mem_map.1 hc
          by_cases hseen : b ∈ insert blockId state.visitedBlocks
          · rw [Finset.mem_insert, h.visitedBlocks] at hseen
            exact .inl ((hmem' b).2 hseen)
          · exact .inr (mem_waiting_inr.2 (List.mem_filter.2 ⟨hb, decide_eq_true hseen⟩))
      · rintro (f | b)
        · rw [mem_waiting_inl, mem_waiting_inl, mem_waiting_inl]
          exact List.mem_append
        · rw [mem_waiting_inr, mem_waiting_inr, mem_waiting_inr]
          exact List.mem_append
    · rw [List.filterMap_append, ← h.order]
      exact (List.append_nil _).symm
    · rw [h.visitedFunctions, hmem]
    · rw [Finset.mem_insert, h.visitedBlocks, hmem']
    · rw [rowsOf_concat_inr hrow, List.filter_append, List.map_append, ← h.blocksByFunction]
      by_cases hf : f = row.functionId
      · subst hf
        simp [hid]
      · simp [Function.update_of_ne hf, Ne.symm hf]
    · rw [rowsOf_concat_inr hrow, List.map_append, List.foldl_append, ← h.uses]
      rfl
    · rw [h.provenance]
      exact exists_congr fun f => and_congr_left fun _ => (hmem f).symm
    · refine ⟨function.id, (h.visitedFunctionOrder_mem function.id).2 hin, function, hfunction,
        rfl, block, ?_, ?_, hexact.calls callee (List.mem_of_mem_filter hcallee)⟩
      · exact HirModule.blockById_id hexact.found ▸ hid.symm ▸ hreach
      · exact (HirModule.blockById_id hexact.found).symm ▸ hexact.found
    · rw [hmem] at hf
      rcases hf with hf | hf
      · exact h.knownFunctions f (.inl hf)
      · rcases List.mem_append.1 hf with hf | hf
        · exact h.knownFunctions f (.inr hf)
        · exact hknown f (List.mem_of_mem_filter hf)
    · have hold : .inr b ∈ seen ∨ b ∈ state.blockWorklist → ∃ function ∈ hir.functions,
          .inl function.id ∈ seen ++ [.inr blockId] ∧ hir.Reaches function.entry b := by
        intro hb
        obtain ⟨other, hother, hin, hreach⟩ := h.owned b hb
        exact ⟨other, hother, (hmem other.id).2 hin, hreach⟩
      rcases hb with hb | hb
      · rcases (hmem' b).1 hb with rfl | hb
        · exact hold (.inr (hworklist ▸ List.mem_cons_self))
        · exact hold (.inl hb)
      · rcases List.mem_append.1 hb with hb | hb
        · exact hold (hrest b (.inr hb))
        · refine ⟨function, hfunction, (hmem function.id).2 hin, hreach.tail ?_⟩
          exact hid ▸ hexact.edge (List.mem_of_mem_filter hb)
    · have hnext : facts.linkGraph.successors (.inr blockId) =
          some (row.directUserCalls.map .inl ++ row.successorBlocks.map .inr) := by
        show (facts.factsForBlock blockId).map _ = _
        rw [hrow]
        rfl
      have hswap : facts.linkGraph.room seen
            (waiting state.functionWorklist state.blockWorklist) =
          facts.linkGraph.room seen (.inr blockId :: waiting state.functionWorklist rest) := by
        rw [FiniteGraph.room, FiniteGraph.room, hlength, List.length_cons]
      rw [hswap]
      refine FiniteGraph.room_visit hnext hnew ?_
      have hcalls := List.length_filter_le
        (fun called => decide (called ∉ state.visitedFunctions)) row.directUserCalls
      have hblocks := List.length_filter_le
        (fun successor => decide (successor ∉ insert blockId state.visitedBlocks))
        row.successorBlocks
      rw [length_waiting, length_waiting, List.length_append, List.length_append,
        List.length_append, List.length_map, List.length_map]
      omega

theorem drainBlocks_unites (hvalid : hir.Validated side) (hfacts : ModuleFacts hir side facts)
    (hdisjoint : hir.DisjointFlow) {fuel : Nat}
    (h : Uniting hir facts roots seen state.functionWorklist state)
    (hfuel : facts.linkGraph.room seen (waiting state.functionWorklist state.blockWorklist) <
      fuel) :
    ∃ next, drainBlocks facts fuel state = some (.ok next) ∧ next.blockWorklist = [] ∧ ∃ seen',
      Uniting hir facts roots seen' next.functionWorklist next ∧
      facts.linkGraph.room seen' (waiting next.functionWorklist []) ≤
        facts.linkGraph.room seen (waiting state.functionWorklist state.blockWorklist) ∧
      (state.blockWorklist ≠ [] → facts.linkGraph.room seen' (waiting next.functionWorklist []) <
        facts.linkGraph.room seen (waiting state.functionWorklist state.blockWorklist)) := by
  induction fuel generalizing seen state with
  | zero => exact absurd hfuel (Nat.not_lt_zero _)
  | succ fuel ih =>
      rw [drainBlocks]
      cases hworklist : state.blockWorklist with
      | nil =>
          exact ⟨state, rfl, hworklist, seen, h, Nat.le_refl _, fun hne => absurd rfl hne⟩
      | cons blockId rest =>
          obtain ⟨middle, hvisit, seen₁, h₁, hless⟩ :=
            visitSelectedBlock_unites hvalid hfacts hdisjoint hworklist h
          simp only [hvisit]
          obtain ⟨next, hdrain, hempty, seen₂, h₂, hle, -⟩ :=
            ih h₁ (Nat.lt_of_lt_of_le hless (Nat.le_of_lt_succ hfuel))
          have hlt := Nat.lt_of_le_of_lt hle hless
          rw [hworklist] at hlt
          exact ⟨next, hdrain, hempty, seen₂, h₂, hlt.le, fun _ => hlt⟩

theorem drainBoth_unites (hvalid : hir.Validated side) (hfacts : ModuleFacts hir side facts)
    (hdisjoint : hir.DisjointFlow) {fuel : Nat}
    (h : Uniting hir facts roots seen state.functionWorklist state)
    (hfuel : facts.linkGraph.room seen (waiting state.functionWorklist state.blockWorklist) <
      fuel) :
    ∃ next seen', drainBoth facts fuel state = some (.ok next) ∧ next.blockWorklist = [] ∧
      Uniting hir facts roots seen' [] next := by
  induction fuel generalizing seen state with
  | zero => exact absurd hfuel (Nat.not_lt_zero _)
  | succ fuel ih =>
      rw [drainBoth]
      by_cases hdone : (state.functionWorklist.isEmpty && state.blockWorklist.isEmpty) = true
      · rw [if_pos hdone]
        rw [Bool.and_eq_true, List.isEmpty_iff, List.isEmpty_iff] at hdone
        exact ⟨state, seen, rfl, hdone.2, hdone.1 ▸ h⟩
      · rw [if_neg hdone]
        rw [Bool.and_eq_true, List.isEmpty_iff, List.isEmpty_iff] at hdone
        have hcleared : Uniting hir facts roots seen state.functionWorklist
            { state with functionWorklist := [] } :=
          ⟨h.exploring, h.order, h.visitedFunctions, h.visitedBlocks, h.blocksByFunction, h.uses,
            h.provenance, h.projectContext, h.discovered, h.knownFunctions, h.owned⟩
        obtain ⟨drained, hdrain, hkept, seen₁, h₁, hroom₁⟩ := drainFunctions_unites hfacts hcleared
        have hnone : drained.functionWorklist = [] := hkept
        have hroom : facts.linkGraph.room seen₁ (waiting [] drained.blockWorklist) +
            state.functionWorklist.length ≤ facts.linkGraph.room seen
              (waiting state.functionWorklist state.blockWorklist) := hroom₁
        have hfuel₁ : facts.linkGraph.room seen₁
            (waiting drained.functionWorklist drained.blockWorklist) < fuel + 1 := by
          rw [hnone]
          omega
        obtain ⟨next, hblocks, hempty, seen₂, h₂, hle, hlt⟩ :=
          drainBlocks_unites hvalid hfacts hdisjoint (hnone.symm ▸ h₁) hfuel₁
        simp only [hdrain, hblocks, Option.bind_eq_bind, Option.bind_some]
        refine ih h₂ ?_
        rw [hempty]
        rw [hnone] at hle hlt
        -- one of the two worklists had an entry to pay for the round
        by_cases hfunctions : state.functionWorklist = []
        · have hsame : drained = { state with functionWorklist := [] } := by
            rw [hfunctions] at hdrain
            cases hdrain
            rfl
          have hne : drained.blockWorklist ≠ [] := by
            rw [hsame]
            exact fun hnil => hdone ⟨hfunctions, hnil⟩
          have := hlt hne
          omega
        · have hpos := List.length_pos_of_ne_nil hfunctions
          omega

end Moth.Hir
