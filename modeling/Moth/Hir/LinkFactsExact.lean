import Moth.Hir.LinkFacts
import Moth.Lib.Worklist

/-!
# What the link facts say

In a validated module the traversal of a function ends and records one row for
each block its entry reaches. A row names the block's successors and uses; its
calls are among the block's, and over all rows of the function no call of a
reached block is missing.
-/

namespace Moth.Hir

open Moth.Lib Moth.Source

/-- What HIR validation has established of a module before its facts are collected. -/
structure HirModule.Validated (hir : HirModule) (side : HirSideFacts) : Prop where
  functions : (hir.functions.map HirFunction.id).Nodup
  blocks : (hir.blocks.map HirBlock.id).Nodup
  provenance : ∀ function ∈ hir.functions, (side.functionProvenance function.id).isSome
  entries : ∀ function ∈ hir.functions, (hir.blockById function.entry).isSome
  targets : ∀ block ∈ hir.blocks, ∀ target ∈ block.terminator.targets,
    (hir.blockById target).isSome
  terminated : ∀ block ∈ hir.blocks, block.terminator ≠ .Uninitialized
  callees : ∀ block ∈ hir.blocks, ∀ callee ∈ block.localCalls,
    callee ∈ hir.functions.map HirFunction.id

/-- A block is reached from another along the edges of the control flow. -/
def HirModule.Reaches (hir : HirModule) : BlockId → BlockId → Prop :=
  Relation.ReflTransGen hir.flowGraph.Edge

/-! ## Calls recorded once -/

theorem mem_recordUserCalls {calls : List FunctionId} {seen : Finset FunctionId}
    {direct : List FunctionId} {function : FunctionId} :
    (function ∈ (recordUserCalls calls seen direct).1 ↔ function ∈ seen ∨ function ∈ calls) ∧
      (function ∈ (recordUserCalls calls seen direct).2 ↔
        function ∈ direct ∨ function ∈ calls ∧ function ∉ seen) := by
  induction calls generalizing seen direct with
  | nil => simp [recordUserCalls]
  | cons first rest ih =>
      rw [recordUserCalls]
      by_cases hfirst : first ∈ seen
      · rw [if_pos hfirst, ih.1, ih.2, List.mem_cons]
        by_cases heq : function = first
        · subst heq
          simp [hfirst]
        · simp [heq]
      · rw [if_neg hfirst, ih.1, ih.2, List.mem_cons, Finset.mem_insert, List.mem_append,
          List.mem_singleton]
        by_cases heq : function = first
        · subst heq
          simp [hfirst]
        · simp [heq]

/-! ## The rows of a function -/

section Rows

variable (hir : HirModule) (side : HirSideFacts) (ownerFunction : FunctionId)

/-- A row says of its block what the module says. -/
structure RowExact (row : HirBlockLinkFacts) (block : HirBlock) : Prop where
  found : hir.blockById row.blockId = some block
  owner : row.functionId = ownerFunction
  successors : row.successorBlocks = block.terminator.targets
  uses : row.directUses = blockUses hir side ownerFunction block
  calls : ∀ callee ∈ row.directUserCalls, callee ∈ block.localCalls

/-- The rows of a function and the calls they have seen. -/
structure RowsExact (rows : List HirBlockLinkFacts) (seenUserCalls : Finset FunctionId) : Prop where
  exact_ : ∀ row ∈ rows, ∃ block, RowExact hir side ownerFunction row block
  recorded : ∀ callee ∈ seenUserCalls, ∃ row ∈ rows, callee ∈ row.directUserCalls
  complete : ∀ row ∈ rows, ∀ block, hir.blockById row.blockId = some block →
    ∀ callee ∈ block.localCalls, callee ∈ seenUserCalls

variable {hir side ownerFunction}

theorem RowsExact.empty : RowsExact hir side ownerFunction [] ∅ where
  exact_ _ h := absurd h List.not_mem_nil
  recorded callee h := absurd h (Finset.notMem_empty callee)
  complete _ h := absurd h List.not_mem_nil

theorem RowsExact.push {rows : List HirBlockLinkFacts} {seenUserCalls : Finset FunctionId}
    (h : RowsExact hir side ownerFunction rows seenUserCalls) {blockId : BlockId}
    {block : HirBlock} (hblock : hir.blockById blockId = some block) :
    RowsExact hir side ownerFunction
      (rows ++ [⟨blockId, ownerFunction, block.terminator.targets,
        (recordUserCalls block.localCalls seenUserCalls []).2,
        blockUses hir side ownerFunction block⟩])
      (recordUserCalls block.localCalls seenUserCalls []).1 where
  exact_ row hrow := by
    rcases List.mem_append.1 hrow with hrow | hrow
    · exact h.exact_ row hrow
    · rw [List.mem_singleton.1 hrow]
      refine ⟨block, hblock, rfl, rfl, rfl, fun callee hcallee => ?_⟩
      exact ((mem_recordUserCalls.2.1 hcallee).resolve_left List.not_mem_nil).1
  recorded callee hcallee := by
    by_cases hseen : callee ∈ seenUserCalls
    · obtain ⟨row, hrow, hin⟩ := h.recorded callee hseen
      exact ⟨row, List.mem_append_left _ hrow, hin⟩
    · have hcalled := (mem_recordUserCalls.1.1 hcallee).resolve_left hseen
      refine ⟨_, List.mem_append_right _ (List.mem_singleton_self _), ?_⟩
      exact mem_recordUserCalls.2.2 (.inr ⟨hcalled, hseen⟩)
  complete row hrow found hfound callee hcallee := by
    rcases List.mem_append.1 hrow with hrow | hrow
    · exact mem_recordUserCalls.1.2 (.inl (h.complete row hrow found hfound callee hcallee))
    · rw [List.mem_singleton.1 hrow] at hfound
      cases hblock.symm.trans hfound
      exact mem_recordUserCalls.1.2 (.inr hcallee)

end Rows

/-! ## The traversal of a function -/

section Traversal

variable {hir : HirModule} {side : HirSideFacts} {ownerFunction : FunctionId}

theorem HirModule.Validated.terminatorSuccessors (h : hir.Validated side) {block : HirBlock}
    (hblock : block ∈ hir.blocks) :
    Moth.Hir.terminatorSuccessors block.terminator = .ok block.terminator.targets := by
  have hterm := h.terminated block hblock
  unfold Moth.Hir.terminatorSuccessors
  split
  · exact absurd ‹_› hterm
  · rfl

/-- The traversal after some visits, which `order` lists. -/
structure Collecting (hir : HirModule) (side : HirSideFacts) (ownerFunction : FunctionId)
    (entry : BlockId) (order : List BlockId) (state : CollectState) : Prop where
  exploring : hir.flowGraph.Exploring [entry] order state.blockWorklist
  visited : ∀ b, b ∈ state.visitedBlocks ↔ b ∈ order
  rows : state.blockFacts.map HirBlockLinkFacts.blockId = order
  exact_ : RowsExact hir side ownerFunction state.blockFacts state.seenUserCalls

theorem HirModule.Validated.reaches_block (h : hir.Validated side) {entry b : BlockId}
    (hentry : (hir.blockById entry).isSome) (hreach : hir.Reaches entry b) :
    (hir.blockById b).isSome := by
  induction hreach with
  | refl => exact hentry
  | tail _ hedge _ =>
      obtain ⟨next, hnext, hin⟩ := hedge
      obtain ⟨block, hblock, rfl⟩ := Option.map_eq_some_iff.1 hnext
      exact h.targets block (HirModule.blockById_mem hblock) _ hin

theorem collectBlocks_collects (h : hir.Validated side) {entry : BlockId}
    (hentry : (hir.blockById entry).isSome) {fuel : Nat} {order : List BlockId}
    {state : CollectState} (hstate : Collecting hir side ownerFunction entry order state)
    (hfuel : hir.flowGraph.room order state.blockWorklist < fuel) :
    ∃ order' final, collectBlocks hir side ownerFunction fuel state = some (.ok final) ∧
      Collecting hir side ownerFunction entry order' final ∧ final.blockWorklist = [] := by
  induction fuel generalizing order state with
  | zero => exact absurd hfuel (Nat.not_lt_zero _)
  | succ fuel ih =>
      rw [collectBlocks]
      obtain ⟨worklist, visitedBlocks, seenUserCalls, blockFacts⟩ := state
      have hexploring := hstate.exploring
      have hvisited := hstate.visited
      simp only at hexploring hvisited hfuel ⊢
      cases worklist with
      | nil => exact ⟨order, _, rfl, hstate, rfl⟩
      | cons blockId rest =>
          simp only [visitBlock]
          by_cases hseen : blockId ∈ visitedBlocks
          · rw [if_pos hseen]
            refine ih ⟨?_, hvisited, hstate.rows, hstate.exact_⟩ ?_
            · exact hexploring.skip ((hvisited blockId).1 hseen) fun c => List.mem_cons
            · rw [FiniteGraph.room, List.length_cons] at hfuel
              show hir.flowGraph.room order rest < fuel
              rw [FiniteGraph.room]
              omega
          · rw [if_neg hseen]
            obtain ⟨s, hs, hreach⟩ := hexploring.sound blockId (.inr List.mem_cons_self)
            rw [List.mem_singleton] at hs
            subst hs
            obtain ⟨block, hblock⟩ := Option.isSome_iff_exists.1 (h.reaches_block hentry hreach)
            simp only [hblock, h.terminatorSuccessors (HirModule.blockById_mem hblock), ok_bind]
            have hnew : blockId ∉ order := fun hin => hseen ((hvisited blockId).2 hin)
            have hnext := HirModule.flowGraph_successors hblock
            have hmem (b : BlockId) :
                b ∈ insert blockId visitedBlocks ↔ b ∈ order ++ [blockId] := by
              rw [Finset.mem_insert, hvisited, List.mem_append, List.mem_singleton, or_comm]
            refine @ih (order ++ [blockId]) _ ⟨?_, hmem, ?_, ?_⟩ ?_
            · refine hexploring.visit hnew (fun c => List.mem_cons) (fun c hc => ?_)
                (fun c hedge => ?_) fun c => List.mem_append
              · exact ⟨_, hnext, List.mem_of_mem_filter hc⟩
              · obtain ⟨next, hnext', hin⟩ := hedge
                cases hnext.symm.trans hnext'
                by_cases hc : c ∈ insert blockId visitedBlocks
                · exact .inl ((hmem c).1 hc)
                · exact .inr (List.mem_filter.2 ⟨hin, decide_eq_true hc⟩)
            · show List.map _ (blockFacts ++ _) = _
              rw [List.map_append, hstate.rows, List.map_singleton]
            · exact hstate.exact_.push hblock
            · refine Nat.lt_of_lt_of_le (FiniteGraph.room_visit hnext hnew ?_)
                (Nat.le_of_lt_succ hfuel)
              rw [List.length_append]
              exact Nat.add_le_add_left (List.length_filter_le _ _) _

theorem HirModule.Validated.blockById_of_mem (h : hir.Validated side) {block : HirBlock}
    (hblock : block ∈ hir.blocks) :
    hir.blockById block.id = some block := by
  obtain ⟨found, hfound⟩ := Option.isSome_iff_exists.1
    (List.find?_isSome (p := fun found : HirBlock => decide (found.id = block.id)).2
      ⟨block, hblock, decide_eq_true rfl⟩)
  have hid := HirModule.blockById_id hfound
  rw [← List.inj_on_of_nodup_map h.blocks (HirModule.blockById_mem hfound) hblock hid]
  rw [hid]
  exact hfound

/-- The rows of a function: one for each block its entry reaches, and every call of such a block
in one of them. -/
structure FunctionRows (hir : HirModule) (side : HirSideFacts) (function : HirFunction)
    (rows : List HirBlockLinkFacts) : Prop where
  nodup : (rows.map HirBlockLinkFacts.blockId).Nodup
  reached : ∀ b, b ∈ rows.map HirBlockLinkFacts.blockId ↔ hir.Reaches function.entry b
  exact_ : ∀ row ∈ rows, ∃ block, RowExact hir side function.id row block
  complete : ∀ row ∈ rows, ∀ block, hir.blockById row.blockId = some block →
    ∀ callee ∈ block.localCalls, ∃ recording ∈ rows, callee ∈ recording.directUserCalls

theorem collectFunction_rows (h : hir.Validated side) {function : HirFunction}
    (hfunction : function ∈ hir.functions) :
    ∃ rows, collectFunction hir side function.id hir.traversalFuel function.entry =
      some (.ok rows) ∧ FunctionRows hir side function rows := by
  have hstart : Collecting hir side function.id function.entry [] ⟨[function.entry], ∅, ∅, []⟩ :=
    ⟨.start _ _, fun b => iff_of_false (Finset.notMem_empty b) List.not_mem_nil, rfl, .empty⟩
  have hroom : hir.flowGraph.room [] [function.entry] < hir.traversalFuel := by
    have hweight : hir.flowGraph.unseenWeight [] hir.flowGraph.nodes =
        (hir.blocks.map fun block => block.terminator.targets.length + 1).sum := by
      rw [FiniteGraph.unseenWeight_nil]
      show ((hir.blocks.map fun block => block.id).map _).sum = _
      rw [List.map_map]
      refine congrArg List.sum (List.map_congr_left fun block hblock => ?_)
      show ((hir.flowGraph.successors block.id).getD []).length + 1 = _
      rw [HirModule.flowGraph_successors (h.blockById_of_mem hblock)]
      rfl
    have hle : (hir.blocks.map fun block => block.terminator.targets.length + 1).sum ≤
        (hir.blocks.map fun block =>
          block.terminator.targets.length + block.localCalls.length + 2).sum :=
      List.sum_le_sum fun block _ => by omega
    rw [FiniteGraph.room, hweight, HirModule.traversalFuel, List.length_singleton]
    omega
  obtain ⟨order, final, hrun, hfinal, hempty⟩ :=
    collectBlocks_collects h (h.entries function hfunction) hstart hroom
  have hexploring := hfinal.exploring
  rw [hempty] at hexploring
  refine ⟨final.blockFacts, by rw [collectFunction, hrun]; rfl, ?_, fun b => ?_,
    hfinal.exact_.exact_, fun row hrow block hblock callee hcallee => ?_⟩
  · rw [hfinal.rows]
    exact hexploring.nodup
  · rw [hfinal.rows, hexploring.mem_iff]
    constructor
    · intro hexists
      obtain ⟨start, hstart, hreach⟩ := hexists
      exact List.mem_singleton.1 hstart ▸ hreach
    · intro hreach
      exact ⟨_, List.mem_singleton_self _, hreach⟩
  · have hseen := hfinal.exact_.complete row hrow block hblock callee hcallee
    exact hfinal.exact_.recorded callee hseen

end Traversal

end Moth.Hir
