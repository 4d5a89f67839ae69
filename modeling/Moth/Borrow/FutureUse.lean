import Moth.Borrow.ScanFacts
import Moth.Borrow.Propagation

/-!
# Future use along paths

A layout answers whether a local may be used after a point from two sources:
the largest use key of the point's block, and the propagated facts of the
block's successors. Both are compared here with the paths of the flow graph.

The propagated MAY facts are a fixed point, and a fixed point of the backward
equation contains every local that some path reads before redefining it, by
induction on the path. So a local whose future use is `None` is read by no
path from the point on before it is redefined.
-/

namespace Moth.Borrow

open Moth.Hir Moth.Lib

/-- The statement ids of a module are distinct. -/
def UniqueNodeIds (hir : HirModule) : Prop := (hir.blocks.flatMap HirBlock.nodeIds).Nodup

/-- How the parts of an analysed function fit together. -/
structure LaidOut (hir : HirModule) (a : AnalysedFunction)
    (scan : LayoutScan (layoutLocalIds a.blocks).length) : Prop where
  localIds_injective : Function.Injective a.layout.localIds
  blockById : ∀ block ∈ a.blocks, hir.blockById block.id = some block
  closed : ∀ block ∈ a.blocks, ∀ successor ∈ block.terminator.targets,
    successor ∈ a.blocks.map fun block => block.id
  scanned : ∀ block ∈ a.blocks, ∃ start maxUse live, ScannedBlock hir a.layout.localIds
    (a.blocks.map fun block => block.id) scan block start maxUse live
  lastUse : a.layout.localLastUseOrder = scan.localLastUseOrder
  statementOrder : a.layout.statementOrderById = scan.statementOrderById
  terminatorOrder : a.layout.terminatorOrderByBlock = scan.terminatorOrderByBlock
  maxUse : a.layout.blockLocalMaxUseOrder = scan.blockLocalMaxUseOrder
  successors : a.layout.blockSuccessors = scan.blockSuccessors
  mayUse : propagateBlockFacts (a.blocks.map fun block => block.id) scan.blockSuccessors
    scan.blockLiveness a.layout.visibleLocalsByBlock .AnyPath = some a.layout.mayUseFromBlock

theorem mapM_blockById {hir : HirModule} {ids : List BlockId} {blocks : List HirBlock}
    (h : ids.mapM hir.blockById = some blocks) :
    ids = blocks.map (fun block => block.id) ∧
      ∀ block ∈ blocks, hir.blockById block.id = some block := by
  induction ids generalizing blocks with
  | nil =>
      cases h
      exact ⟨rfl, fun _ hmem => absurd hmem List.not_mem_nil⟩
  | cons id rest ih =>
      simp only [List.mapM_cons, Option.bind_eq_bind, Option.bind_eq_some_iff, Option.pure_def,
        Option.some.injEq] at h
      obtain ⟨first, hfirst, later, hlater, rfl⟩ := h
      obtain ⟨hids, hfound⟩ := ih hlater
      have hid := HirModule.blockById_id hfirst
      refine ⟨by rw [List.map_cons, ← hids, hid], fun block hmem => ?_⟩
      cases List.mem_cons.1 hmem with
      | inl heq =>
          rw [heq, hid]
          exact hfirst
      | inr hin => exact hfound block hin

theorem analysedFunction_blocks {hir : HirModule} {function : HirFunction} {a : AnalysedFunction}
    (h : analysedFunction hir function = some a) :
    hir.collectReachableBlocks function.entry = some (a.blocks.map fun block => block.id) ∧
      (∀ block ∈ a.blocks, hir.blockById block.id = some block) ∧
      buildFunctionLayout hir function a.blocks = some a.layout := by
  simp only [analysedFunction, Option.bind_eq_bind, Option.bind_eq_some_iff, Option.pure_def,
    Option.some.injEq] at h
  obtain ⟨reachable, hreachable, blocks, hblocks, layout, hlayout, rfl⟩ := h
  obtain ⟨hids, hfound⟩ := mapM_blockById hblocks
  exact ⟨by rw [hreachable, hids], hfound, hlayout⟩

theorem distinctIds_of_found {hir : HirModule} (hunique : UniqueNodeIds hir)
    {blocks : List HirBlock} (hnodup : (blocks.map fun block => block.id).Nodup)
    (hfound : ∀ block ∈ blocks, hir.blockById block.id = some block) : DistinctIds blocks := by
  obtain ⟨hwithin, hdisjoint⟩ := List.nodup_flatMap.1 hunique
  have : Std.Symm (Function.onFun List.Disjoint HirBlock.nodeIds) := ⟨fun _ _ h => h.symm⟩
  have hmem := fun block hblock => HirModule.blockById_mem (hfound block hblock)
  have hown : ∀ block : HirBlock, ∀ id ∈ block.statements.map (fun s => s.id),
      id ∈ block.nodeIds := fun _ _ hid => List.mem_append_left _ hid
  refine ⟨hnodup, List.nodup_flatMap.2 ⟨fun block hblock => ?_, ?_⟩⟩
  · exact (List.nodup_append.1 (hwithin block (hmem block hblock))).1
  · refine List.Pairwise.imp_of_mem ?_ (List.pairwise_map.1 hnodup)
    intro block other hblock hother hne id hid hid'
    have hblocks : block ≠ other := fun heq => hne (congrArg HirBlock.id heq)
    exact hdisjoint.forall (hmem block hblock) (hmem other hother) hblocks (hown block id hid)
      (hown other id hid')

/-- The scan behind an analysed function's layout, block by block. -/
theorem scanned_of_analysed {hir : HirModule} (hunique : UniqueNodeIds hir)
    {function : HirFunction} {a : AnalysedFunction} (h : analysedFunction hir function = some a) :
    ∃ sourceRoots scan, compilerAliasSourceRoots hir a.layout.localIds
        (a.blocks.flatMap fun block => block.statements) = some sourceRoots ∧
      LaidOut hir a scan ∧
      ∀ block ∈ a.blocks, ∃ before : LayoutScan (layoutLocalIds a.blocks).length,
        ScannedBlock hir a.layout.localIds (a.blocks.map fun block => block.id) scan block
          before.nextOrderKey
          (scanBlockBody hir a.layout.localIds sourceRoots before block).2.maxUseOrder
          (carryReads sourceRoots
            (scanBlockBody hir a.layout.localIds sourceRoots before block).2.liveness) := by
  obtain ⟨hreach, hfound, hlayout⟩ := analysedFunction_blocks h
  obtain ⟨blocks, layout⟩ := a
  have hinj := layoutLocalIds_injective blocks
  have hids := distinctIds_of_found hunique (FiniteGraph.collect_nodup hreach) hfound
  simp only [buildFunctionLayout, Option.bind_eq_bind, Option.pure_def] at hlayout
  split at hlayout
  · cases hlayout
  · simp only [Option.bind_eq_some_iff, Option.some.injEq] at hlayout
    obtain ⟨sourceRoots, hroots, visible, -, may, hmay, must, -, assign, -, rfl⟩ := hlayout
    have hstart : (0 : Int) ≤ (LayoutScan.new (layoutLocalIds blocks).length).nextOrderKey :=
      le_refl 0
    have hscanned := scanBlocks_scanned hir hinj (blocks.map fun block => block.id) sourceRoots
      hids hstart
    refine ⟨sourceRoots, _, hroots, ⟨hinj, hfound, ?_, ?_, rfl, rfl, rfl, rfl, rfl, hmay⟩,
      hscanned⟩
    · intro block hblock successor hsuccessor
      obtain ⟨next, hnext, hall⟩ :=
        FiniteGraph.collect_successors hreach block.id (List.mem_map_of_mem hblock)
      rw [HirModule.flowGraph_successors (hfound block hblock)] at hnext
      exact hall successor (Option.some.inj hnext ▸ hsuccessor)
    · intro block hblock
      obtain ⟨before, hbefore⟩ := hscanned block hblock
      exact ⟨_, _, _, hbefore⟩

theorem laidOut_of_analysed {hir : HirModule} (hunique : UniqueNodeIds hir)
    {function : HirFunction} {a : AnalysedFunction} (h : analysedFunction hir function = some a) :
    ∃ scan, LaidOut hir a scan := by
  obtain ⟨-, scan, -, hlaid, -⟩ := scanned_of_analysed hunique h
  exact ⟨scan, hlaid⟩

section Paths

variable {hir : HirModule} {a : AnalysedFunction}
  {scan : LayoutScan (layoutLocalIds a.blocks).length}

theorem LaidOut.block_of_id (hlaid : LaidOut hir a scan) {id : BlockId} {block : HirBlock}
    (hmem : id ∈ a.blocks.map fun block => block.id) (hfound : hir.blockById id = some block) :
    block ∈ a.blocks ∧ block.id = id := by
  obtain ⟨other, hother, rfl⟩ := List.mem_map.1 hmem
  rw [hlaid.blockById other hother] at hfound
  cases hfound
  exact ⟨hother, rfl⟩

/-- A local that some path from a block reads before redefining it may be used from there. -/
theorem LaidOut.containsAt_mayUse (hlaid : LaidOut hir a scan)
    {i : Fin (layoutLocalIds a.blocks).length} {id : BlockId}
    (hmem : id ∈ a.blocks.map fun block => block.id)
    (hread : ReadsOnPath hir (a.layout.localIds i) id) :
    containsAt a.layout.mayUseFromBlock id i = true := by
  have hmay := hlaid.mayUse
  rw [propagateBlockFacts, Option.map_eq_some_iff] at hmay
  obtain ⟨liveIn, hstable, hfacts⟩ := hmay
  have hfixed := sweepUntilStable_fixed hstable
  have hlive : i ∈ liveIn id := by
    induction hread with
    | @here id block hblock hfirst =>
        obtain ⟨hin, rfl⟩ := hlaid.block_of_id hmem hblock
        obtain ⟨start, maxUse, live, hscanned⟩ := hlaid.scanned block hin
        rw [hfixed _ (List.mem_reverse.2 hmem), blockTransfer, hscanned.liveness_eq]
        exact Finset.mem_union_right _ (hscanned.exposed i hfirst)
    | @there id successor block hblock hkept hsuccessor _ ih =>
        obtain ⟨hin, rfl⟩ := hlaid.block_of_id hmem hblock
        obtain ⟨start, maxUse, live, hscanned⟩ := hlaid.scanned block hin
        have hreach := hlaid.closed block hin successor hsuccessor
        rw [hfixed _ (List.mem_reverse.2 hmem), blockTransfer, hscanned.liveness_eq,
          hscanned.successors_eq]
        refine Finset.mem_union_left _ (Finset.mem_sdiff.2 ⟨?_, ?_⟩)
        · refine (mem_combineSuccessorFacts_any (by decide)).2 ⟨successor, ?_, hreach, ih hreach⟩
          exact List.mem_filter.2 ⟨hsuccessor, decide_eq_true hreach⟩
        · exact fun hdefined => hkept ((hscanned.mem_definitions i).1 hdefined)
  rw [containsAt, ← hfacts]
  simp [hmem, hlive]

theorem LaidOut.successor (hlaid : LaidOut hir a scan) {block : HirBlock}
    (hblock : block ∈ a.blocks) {successor : BlockId}
    (hsuccessor : successor ∈ block.terminator.targets) :
    ∃ successors, a.layout.blockSuccessors block.id = some successors ∧
      successor ∈ successors := by
  obtain ⟨start, maxUse, live, hscanned⟩ := hlaid.scanned block hblock
  refine ⟨_, by rw [hlaid.successors]; exact hscanned.successors_eq, ?_⟩
  exact List.mem_filter.2
    ⟨hsuccessor, decide_eq_true (hlaid.closed block hblock successor hsuccessor)⟩

theorem exists_read_of_readsFirst {store : HirExpressionStore} {target : LocalId}
    {terminator : HirTerminator} {rest : List HirStatement}
    (h : ReadsFirst store target terminator rest) :
    TerminatorReads store target terminator ∨
      ∃ earlier statement later, rest = earlier ++ statement :: later ∧
        StatementReads store target statement := by
  induction rest with
  | nil => exact Or.inl h
  | cons first rest ih =>
      cases h with
      | inl hread => exact Or.inr ⟨[], first, rest, rfl, hread⟩
      | inr hlater =>
          cases ih hlater.2 with
          | inl hread => exact Or.inl hread
          | inr hsome =>
              obtain ⟨earlier, statement, later, rfl, hread⟩ := hsome
              exact Or.inr ⟨first :: earlier, statement, later, rfl, hread⟩

theorem ScannedBlock.used_from {n : Nat} {localIds : Fin n → LocalId} {reachable : List BlockId}
    {scan : LayoutScan n} {block : HirBlock} {start : Int} {maxUse : Fin n → Int}
    {live : BlockLiveness n}
    (h : ScannedBlock hir localIds reachable scan block start maxUse live)
    {earlier rest : List HirStatement} (hsplit : block.statements = earlier ++ rest) {i : Fin n}
    (hread : ReadsFirst hir.expressions (localIds i) block.terminator rest) :
    start + earlier.length ≤ maxUse i ∧ start + earlier.length ≤ scan.localLastUseOrder i := by
  cases exists_read_of_readsFirst hread with
  | inl hterminator =>
      have hused := h.terminator_use i hterminator
      rw [hsplit, List.length_append] at hused
      omega
  | inr hsome =>
      obtain ⟨between, statement, later, rfl, hstatement⟩ := hsome
      have hused := h.statement_use (earlier ++ between) statement later
        (by rw [hsplit, List.append_assoc]) i hstatement
      rw [List.length_append] at hused
      omega

/-- What a statement and the operations after it read, they use at the statement's key or
later. -/
theorem LaidOut.used_from (hlaid : LaidOut hir a scan) {block : HirBlock}
    (hblock : block ∈ a.blocks) {earlier later : List HirStatement} {statement : HirStatement}
    (hsplit : block.statements = earlier ++ statement :: later) :
    ∃ maxUse, a.layout.blockLocalMaxUseOrder block.id = some maxUse ∧
      0 ≤ a.layout.statementOrderOrUnknown statement.id ∧
      (∀ i, ReadsFirst hir.expressions (a.layout.localIds i) block.terminator
          (statement :: later) →
        a.layout.statementOrderOrUnknown statement.id ≤ maxUse i ∧
          a.layout.statementOrderOrUnknown statement.id ≤ a.layout.localLastUseOrder i) ∧
      ∀ i, ReadsFirst hir.expressions (a.layout.localIds i) block.terminator later →
        a.layout.statementOrderOrUnknown statement.id < maxUse i := by
  obtain ⟨start, maxUse, live, hscanned⟩ := hlaid.scanned block hblock
  have horder : a.layout.statementOrderOrUnknown statement.id = start + earlier.length := by
    rw [FunctionLayout.statementOrderOrUnknown, hlaid.statementOrder,
      hscanned.statement_order earlier statement later hsplit]
    rfl
  have hstart := hscanned.start_nonneg
  refine ⟨maxUse, by rw [hlaid.maxUse]; exact hscanned.maxUse_eq, by omega, ?_, ?_⟩
  · intro i hread
    rw [horder, hlaid.lastUse]
    exact hscanned.used_from hsplit hread
  · intro i hread
    have hafter : block.statements = (earlier ++ [statement]) ++ later := by
      rw [hsplit, List.append_assoc, List.cons_append, List.nil_append]
    have hused := (hscanned.used_from hafter hread).1
    rw [List.length_append, List.length_cons, List.length_nil] at hused
    omega

theorem LaidOut.lastUse_nonneg (hlaid : LaidOut hir a scan)
    {i : Fin (layoutLocalIds a.blocks).length} {id : BlockId}
    (hmem : id ∈ a.blocks.map fun block => block.id)
    (hread : ReadsOnPath hir (a.layout.localIds i) id) : 0 ≤ a.layout.localLastUseOrder i := by
  induction hread with
  | @here id block hblock hfirst =>
      obtain ⟨hin, rfl⟩ := hlaid.block_of_id hmem hblock
      obtain ⟨start, maxUse, live, hscanned⟩ := hlaid.scanned block hin
      have hused := (hscanned.used_from (List.nil_append _).symm hfirst).2
      have hstart := hscanned.start_nonneg
      rw [List.length_nil] at hused
      rw [hlaid.lastUse]
      omega
  | @there id successor block hblock _ hsuccessor _ ih =>
      obtain ⟨hin, rfl⟩ := hlaid.block_of_id hmem hblock
      exact ih (hlaid.closed block hin successor hsuccessor)

/-- A local without future use at a point of a block is read by no path from a successor on
before it is redefined. -/
theorem LaidOut.not_readsOnPath (hlaid : LaidOut hir a scan) {block : HirBlock}
    (hblock : block ∈ a.blocks) {order : Int} {i : Fin (layoutLocalIds a.blocks).length}
    (hnone : a.layout.futureUseKind block.id i order = .None) {successor : BlockId}
    (hsuccessor : successor ∈ block.terminator.targets) :
    ¬ ReadsOnPath hir (a.layout.localIds i) successor := by
  intro hpath
  obtain ⟨successors, hsuccessors, hmem⟩ := hlaid.successor hblock hsuccessor
  have hmay := hlaid.containsAt_mayUse (hlaid.closed block hblock successor hsuccessor) hpath
  rw [(FunctionLayout.futureUseKind_eq_none hnone).2 successors hsuccessors successor hmem] at hmay
  cases hmay

/-- A local without future use after a statement is read by no path from there on before it is
redefined. -/
theorem LaidOut.not_readsFrom (hlaid : LaidOut hir a scan) {block : HirBlock}
    (hblock : block ∈ a.blocks) {earlier later : List HirStatement} {statement : HirStatement}
    (hsplit : block.statements = earlier ++ statement :: later)
    {i : Fin (layoutLocalIds a.blocks).length}
    (hnone : a.layout.futureUseKind block.id i
      (a.layout.statementOrderOrUnknown statement.id) = .None) :
    ¬ ReadsFrom hir (a.layout.localIds i) block.terminator later := by
  have hinBlock := (FunctionLayout.futureUseKind_eq_none hnone).1
  intro hread
  cases hread with
  | inl hfirst =>
      obtain ⟨maxUse, hmaxUse, -, -, hafter⟩ := hlaid.used_from hblock hsplit
      have hlater := hafter i hfirst
      have hle := FunctionLayout.localHasFutureUseInBlock_eq_false hinBlock hmaxUse
      omega
  | inr hthere =>
      obtain ⟨-, successor, hsuccessor, hpath⟩ := hthere
      exact hlaid.not_readsOnPath hblock hnone hsuccessor hpath

end Paths

end Moth.Borrow
