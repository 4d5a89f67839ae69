import Moth.Hir.UnionWalk

/-!
# What reachability selects

From known roots the union succeeds. It selects the functions that the roots
call directly or through others, the blocks those functions reach, and the
uses of these blocks, each block once.
-/

namespace Moth.Hir

open Moth.Lib Moth.Source

/-- The least set with the roots and all that its members call. -/
def HirModule.ReachedFrom (hir : HirModule) (roots : List FunctionId) (function : FunctionId) :
    Prop :=
  ∃ root ∈ roots, Relation.ReflTransGen hir.Calls root function

variable {hir : HirModule} {side : HirSideFacts} {facts : HirModuleLinkFacts}
  {roots : List FunctionId} {seen : List LinkNode} {state : UnionState}

theorem function_eq_of_id (hvalid : hir.Validated side) {function other : HirFunction}
    (hfunction : function ∈ hir.functions) (hother : other ∈ hir.functions)
    (h : function.id = other.id) : function = other :=
  List.inj_on_of_nodup_map hvalid.functions hfunction hother h

theorem room_start (hfacts : ModuleFacts hir side facts) (roots : List FunctionId) :
    facts.linkGraph.room [] (waiting roots []) < facts.unionFuel roots.length := by
  have hfunctions : (facts.functions.map fun row =>
      ((facts.next (.inl row.functionId)).getD []).length + 1).sum =
      2 * facts.functions.length := by
    rw [List.map_congr_left (g := fun _ => 2), List.map_const', List.sum_replicate, Nat.mul_comm]
    · rfl
    intro row hrow
    have hfound : facts.factsFor row.functionId = some row := hfacts.factsFor_iff.2 ⟨hrow, rfl⟩
    rw [HirModuleLinkFacts.next, hfound]
    rfl
  have hblocks : (facts.blocks.map fun row =>
      ((facts.next (.inr row.blockId)).getD []).length + 1).sum =
      (facts.blocks.map fun block =>
        block.directUserCalls.length + block.successorBlocks.length + 1).sum := by
    refine congrArg List.sum (List.map_congr_left fun row hrow => ?_)
    have hfound : facts.factsForBlock row.blockId = some row :=
      hfacts.factsForBlock_iff.2 ⟨hrow, rfl⟩
    rw [HirModuleLinkFacts.next, hfound, Option.map_some, Option.getD_some, List.length_append,
      List.length_map, List.length_map]
  have hweight : facts.linkGraph.unseenWeight [] facts.linkGraph.nodes =
      2 * facts.functions.length + (facts.blocks.map fun block =>
        block.directUserCalls.length + block.successorBlocks.length + 1).sum := by
    rw [FiniteGraph.unseenWeight_nil, ← hfunctions, ← hblocks]
    show (List.map _ (facts.functions.map _ ++ facts.blocks.map _)).sum = _
    rw [List.map_append, List.sum_append, List.map_map, List.map_map]
    rfl
  rw [FiniteGraph.room, hweight, length_waiting, HirModuleLinkFacts.unionFuel, List.length_nil]
  omega

theorem collectReachability_unites (hvalid : hir.Validated side)
    (hfacts : ModuleFacts hir side facts) (hdisjoint : hir.DisjointFlow)
    (hroots : ∀ root ∈ roots, root ∈ hir.functions.map HirFunction.id) :
    ∃ state seen, collectReachabilityFromFunctionLinkFacts facts roots =
        some (.ok (UnionState.finish state)) ∧
      state.blockWorklist = [] ∧ Uniting hir facts roots seen [] state := by
  have hroom : facts.linkGraph.room []
      (waiting (UnionState.start roots).functionWorklist (UnionState.start roots).blockWorklist) <
      facts.unionFuel roots.length := room_start hfacts roots
  obtain ⟨state, seen, hdrain, hempty, h⟩ := drainBoth_unites hvalid hfacts hdisjoint
    (Uniting.start hroots) hroom
  refine ⟨state, seen, ?_, hempty, h⟩
  rw [collectReachabilityFromFunctionLinkFacts, hdrain]
  rfl

/-! ## Functions and blocks -/

theorem Uniting.done (h : Uniting hir facts roots seen [] state)
    (hempty : state.blockWorklist = []) :
    facts.linkGraph.Exploring (roots.map .inl) seen [] := by
  have hexploring := h.exploring
  rw [hempty] at hexploring
  exact hexploring

theorem row_of_seen (hfacts : ModuleFacts hir side facts) {function : HirFunction}
    (hfunction : function ∈ hir.functions) {b : BlockId} (hreach : hir.Reaches function.entry b)
    (hdisjoint : hir.DisjointFlow) :
    ∃ row block, facts.factsForBlock b = some row ∧ row.blockId = b ∧
      RowExact hir side function.id row block := by
  obtain ⟨row, hrow, rfl⟩ := hfacts.covered function hfunction b hreach
  obtain ⟨owner, howner, hreach', block, hexact⟩ := hfacts.rows row hrow
  cases hdisjoint function hfunction owner howner _ hreach hreach'
  exact ⟨row, block, hfacts.factsForBlock_iff.2 ⟨hrow, rfl⟩, rfl, hexact⟩

theorem Uniting.sees_blocks (hfacts : ModuleFacts hir side facts) (hdisjoint : hir.DisjointFlow)
    (h : Uniting hir facts roots seen [] state) (hempty : state.blockWorklist = [])
    {function : HirFunction} (hfunction : function ∈ hir.functions)
    (hseen : .inl function.id ∈ seen) {b : BlockId} (hreach : hir.Reaches function.entry b) :
    .inr b ∈ seen := by
  have hdone := h.done hempty
  induction hreach with
  | refl =>
      have hrow : facts.factsFor function.id = some (function.linkFacts side) :=
        hfacts.factsFor_iff.2 ⟨(hfacts.functions _).2 ⟨function, hfunction, rfl⟩, rfl⟩
      exact (hdone.closed _ hseen _ ((edge_function hrow _).2 rfl)).resolve_right List.not_mem_nil
  | @tail b c hreach hedge ih =>
      obtain ⟨row, block, hrow, rfl, hexact⟩ := row_of_seen hfacts hfunction hreach hdisjoint
      have hnext := HirModule.flowGraph_successors hexact.found
      obtain ⟨next, hnext', hin⟩ := hedge
      cases hnext.symm.trans hnext'
      have hpushed : (.inr c : LinkNode) ∈
          row.directUserCalls.map Sum.inl ++ row.successorBlocks.map Sum.inr := by
        rw [hexact.successors]
        exact List.mem_append_right _ (List.mem_map_of_mem hin)
      exact (hdone.closed _ ih _ ((edge_block hrow _).2 hpushed)).resolve_right List.not_mem_nil

theorem Uniting.sees_calls (hvalid : hir.Validated side) (hfacts : ModuleFacts hir side facts)
    (hdisjoint : hir.DisjointFlow) (h : Uniting hir facts roots seen [] state)
    (hempty : state.blockWorklist = []) {caller callee : FunctionId} (hseen : .inl caller ∈ seen)
    (hcalls : hir.Calls caller callee) : .inl callee ∈ seen := by
  obtain ⟨function, hfunction, rfl, block, hreach, hblock, hcallee⟩ := hcalls
  obtain ⟨row, hrow, howner, hrecorded⟩ :=
    hfacts.complete function hfunction block.id hreach block hblock callee hcallee
  obtain ⟨owner, hmem, hreach', _, hexact⟩ := hfacts.rows row hrow
  cases function_eq_of_id hvalid hfunction hmem (howner.symm.trans hexact.owner)
  have hin := h.sees_blocks hfacts hdisjoint hempty hfunction hseen hreach'
  have hfound : facts.factsForBlock row.blockId = some row :=
    hfacts.factsForBlock_iff.2 ⟨hrow, rfl⟩
  have hpushed : (.inl callee : LinkNode) ∈
      row.directUserCalls.map Sum.inl ++ row.successorBlocks.map Sum.inr :=
    List.mem_append_left _ (List.mem_map_of_mem hrecorded)
  exact ((h.done hempty).closed _ hin _ ((edge_block hfound _).2 hpushed)).resolve_right
    List.not_mem_nil

/-- Whatever is seen is reached, as a function or as a block of one. -/
theorem linkGraph_sound (hfacts : ModuleFacts hir side facts)
    (hdisjoint : hir.DisjointFlow) {root : FunctionId} {node : LinkNode}
    (hreach : Relation.ReflTransGen facts.linkGraph.Edge (.inl root) node) :
    (∀ f, node = .inl f → Relation.ReflTransGen hir.Calls root f) ∧
      ∀ b, node = .inr b → ∃ function ∈ hir.functions,
        Relation.ReflTransGen hir.Calls root function.id ∧ hir.Reaches function.entry b := by
  induction hreach with
  | refl => exact ⟨fun f heq => Sum.inl.inj heq ▸ .refl, fun b heq => by cases heq⟩
  | @tail node next _ hedge ih =>
      rcases node with f | b
      · obtain ⟨row, hrow⟩ : ∃ row, facts.factsFor f = some row := by
          obtain ⟨_, hsome, -⟩ := hedge
          obtain ⟨row, hrow, -⟩ := Option.map_eq_some_iff.1 hsome
          exact ⟨row, hrow⟩
        rw [edge_function hrow] at hedge
        subst hedge
        obtain ⟨hmem, hid⟩ := hfacts.factsFor_iff.1 hrow
        obtain ⟨function, hfunction, rfl⟩ := (hfacts.functions row).1 hmem
        refine ⟨fun _ heq => (by cases heq), fun b heq => ⟨function, hfunction, ?_, ?_⟩⟩
        · have hid' : function.id = f := hid
          rw [hid']
          exact ih.1 f rfl
        · cases heq
          exact .refl
      · obtain ⟨row, hrow⟩ : ∃ row, facts.factsForBlock b = some row := by
          obtain ⟨_, hsome, -⟩ := hedge
          obtain ⟨row, hrow, -⟩ := Option.map_eq_some_iff.1 hsome
          exact ⟨row, hrow⟩
        obtain ⟨function, hfunction, hcalls, hreach⟩ := ih.2 b rfl
        obtain ⟨row', block, hrow', rfl, hexact⟩ := row_of_seen hfacts hfunction hreach hdisjoint
        cases hrow.symm.trans hrow'
        rcases List.mem_append.1 ((edge_block hrow _).1 hedge) with hin | hin
        · obtain ⟨callee, hcallee, rfl⟩ := List.mem_map.1 hin
          refine ⟨fun f heq => ?_, fun _ heq => by cases heq⟩
          cases heq
          have hblock := HirModule.blockById_id hexact.found
          refine hcalls.tail ⟨function, hfunction, rfl, block, ?_, ?_, hexact.calls callee hcallee⟩
          · exact hblock ▸ hreach
          · exact hblock.symm ▸ hexact.found
        · obtain ⟨successor, hsuccessor, rfl⟩ := List.mem_map.1 hin
          refine ⟨fun _ heq => (by cases heq), fun c heq => ?_⟩
          cases heq
          exact ⟨function, hfunction, hcalls, hreach.tail (hexact.edge hsuccessor)⟩

theorem Uniting.mem_functions (hvalid : hir.Validated side) (hfacts : ModuleFacts hir side facts)
    (hdisjoint : hir.DisjointFlow) (h : Uniting hir facts roots seen [] state)
    (hempty : state.blockWorklist = []) (f : FunctionId) :
    f ∈ state.visitedFunctions ↔ hir.ReachedFrom roots f := by
  rw [h.visitedFunctions]
  constructor
  · intro hin
    obtain ⟨root, hroot, hreach⟩ := (h.done hempty).mem_iff.1 hin
    obtain ⟨root, hstart, rfl⟩ := List.mem_map.1 hroot
    exact ⟨root, hstart, (linkGraph_sound hfacts hdisjoint hreach).1 f rfl⟩
  · rintro ⟨root, hroot, hreach⟩
    induction hreach with
    | refl =>
        exact ((h.done hempty).started _ (List.mem_map_of_mem hroot)).resolve_right List.not_mem_nil
    | tail _ hcalls ih => exact h.sees_calls hvalid hfacts hdisjoint hempty ih hcalls

theorem Uniting.mem_blocks (hfacts : ModuleFacts hir side facts)
    (hdisjoint : hir.DisjointFlow) (h : Uniting hir facts roots seen [] state)
    (hempty : state.blockWorklist = []) (b : BlockId) :
    b ∈ state.visitedBlocks ↔ ∃ function ∈ hir.functions,
      function.id ∈ state.visitedFunctions ∧ hir.Reaches function.entry b := by
  rw [h.visitedBlocks]
  constructor
  · intro hin
    obtain ⟨function, hfunction, hseen, hreach⟩ := h.owned b (.inl hin)
    exact ⟨function, hfunction, (h.visitedFunctions _).2 hseen, hreach⟩
  · rintro ⟨function, hfunction, hseen, hreach⟩
    exact h.sees_blocks hfacts hdisjoint hempty hfunction ((h.visitedFunctions _).1 hseen) hreach

end Moth.Hir
