import Moth.Borrow.FutureUse
import Moth.Borrow.PathFacts
import Moth.Borrow.ScanExact

/-!
# Uses of carriers

A compiler temporary that was assigned from a load of a local carries it, and a
use of the carrier is meant to be a use of the local. The layout says so of the
uses by statements and of the reads exposed at a block's entry. It does not say
so of a read by the block's own terminator: the terminator is scanned after the
block's uses have been carried back, and nothing carries its own. A source that
only a terminator reads, through a carrier, has no future use in that block.

What the layout answers is told exactly first, in terms of the blocks and their
paths. The condition under which a carrier's read is covered is then read off.
-/

namespace Moth.Borrow

open Moth.Hir Moth.Lib

/-- A user of a local: the local itself or a carrier of it. -/
def Users {n : Nat} (sourceRoots : Fin n → RootSet n) (i user : Fin n) : Prop :=
  user = i ∨ i ∈ sourceRoots user

/-- Some path from the block observes a user of the local, and no earlier block of it redefines
the local. -/
def ObservedOnPath (hir : HirModule) {n : Nat} (localIds : Fin n → LocalId)
    (sourceRoots : Fin n → RootSet n) (i : Fin n) (id : BlockId) : Prop :=
  Reach
    (fun id successor => ∃ block, hir.blockById id = some block ∧
      ¬ Redefines (localIds i) block.terminator block.statements ∧
      successor ∈ block.terminator.targets)
    (fun id => ∃ block, hir.blockById id = some block ∧ ∃ user, Users sourceRoots i user ∧
      ObservesFirst hir.expressions (localIds user) block.terminator block.statements) id

/-- A finished scan whose blocks hold exactly what their bodies left. -/
structure ScannedLayout (hir : HirModule) (a : AnalysedFunction)
    (sourceRoots : Fin (layoutLocalIds a.blocks).length →
      RootSet (layoutLocalIds a.blocks).length)
    (scan : LayoutScan (layoutLocalIds a.blocks).length) : Prop where
  laidOut : LaidOut hir a scan
  closed : ClosedRoots sourceRoots
  block : ∀ block ∈ a.blocks, ∃ before : LayoutScan (layoutLocalIds a.blocks).length,
    ScannedBlock hir a.layout.localIds (a.blocks.map fun block => block.id) scan block
      before.nextOrderKey
      (scanBlockBody hir a.layout.localIds sourceRoots before block).2.maxUseOrder
      (carryReads sourceRoots
        (scanBlockBody hir a.layout.localIds sourceRoots before block).2.liveness)

section Exact

variable {hir : HirModule} {a : AnalysedFunction}
  {sourceRoots : Fin (layoutLocalIds a.blocks).length → RootSet (layoutLocalIds a.blocks).length}
  {scan : LayoutScan (layoutLocalIds a.blocks).length}
  {i : Fin (layoutLocalIds a.blocks).length} {block : HirBlock}

/-- The successors and the liveness of every block of the table. -/
def scanSuccessors {n : Nat} (scan : LayoutScan n) (id : BlockId) : List BlockId :=
  (scan.blockSuccessors id).getD []

def scanLiveness {n : Nat} (scan : LayoutScan n) (id : BlockId) : BlockLiveness n :=
  (scan.blockLiveness id).getD (.new n)

theorem ScannedLayout.mem_successors (h : ScannedLayout hir a sourceRoots scan)
    (hblock : block ∈ a.blocks) {successor : BlockId} :
    successor ∈ scanSuccessors scan block.id ↔ successor ∈ block.terminator.targets := by
  obtain ⟨before, hscanned⟩ := h.block block hblock
  rw [scanSuccessors, hscanned.successors_eq, Option.getD_some, List.mem_filter,
    decide_eq_true_eq]
  exact ⟨And.left, fun hmem => ⟨hmem, h.laidOut.closed block hblock successor hmem⟩⟩

theorem ScannedLayout.mem_definitions (h : ScannedLayout hir a sourceRoots scan)
    (hblock : block ∈ a.blocks) :
    i ∈ (scanLiveness scan block.id).definitions ↔
      Redefines (a.layout.localIds i) block.terminator block.statements := by
  obtain ⟨before, hscanned⟩ := h.block block hblock
  rw [scanLiveness, hscanned.liveness_eq, Option.getD_some]
  exact hscanned.mem_definitions i

theorem ScannedLayout.mem_exposed (h : ScannedLayout hir a sourceRoots scan)
    (hblock : block ∈ a.blocks) :
    i ∈ (scanLiveness scan block.id).upwardExposedReads ↔
      ∃ user, Users sourceRoots i user ∧
        ObservesFirst hir.expressions (a.layout.localIds user) block.terminator
          block.statements := by
  obtain ⟨before, hscanned⟩ := h.block block hblock
  rw [scanLiveness, hscanned.liveness_eq, Option.getD_some]
  exact mem_scanBlockBody hir h.laidOut.localIds_injective h.closed before block i

/-- The table's paths are the paths of the flow graph. -/
theorem ScannedLayout.readBeforeDefined_iff (h : ScannedLayout hir a sourceRoots scan)
    {id : BlockId} (hmem : id ∈ a.blocks.map fun block => block.id) :
    ReadBeforeDefined (a.blocks.map fun block => block.id) (scanSuccessors scan)
        (scanLiveness scan) id i ↔
      ObservedOnPath hir a.layout.localIds sourceRoots i id := by
  have hat : ∀ {id : BlockId}, id ∈ a.blocks.map (fun block => block.id) →
      ∃ block ∈ a.blocks, block.id = id ∧ hir.blockById id = some block := by
    intro id hid
    obtain ⟨block, hblock, rfl⟩ := List.mem_map.1 hid
    exact ⟨block, hblock, rfl, h.laidOut.blockById block hblock⟩
  constructor
  · intro hpath
    revert hmem
    refine Reach.induction (P := fun id => id ∈ a.blocks.map (fun block => block.id) →
      ObservedOnPath hir a.layout.localIds sourceRoots i id) ?_ ?_ hpath
    · intro last hread hlast
      obtain ⟨block, hblock, rfl, hfound⟩ := hat hlast
      exact .here ⟨block, hfound, (h.mem_exposed hblock).1 hread⟩
    · rintro first next ⟨hkept, hnext, hreach⟩ ih hfirst
      obtain ⟨block, hblock, rfl, hfound⟩ := hat hfirst
      refine .head ⟨block, hfound, ?_, (h.mem_successors hblock).1 hnext⟩ (ih hreach)
      exact fun hdefined => hkept ((h.mem_definitions hblock).2 hdefined)
  · intro hpath
    revert hmem
    refine Reach.induction (P := fun id => id ∈ a.blocks.map (fun block => block.id) →
      ReadBeforeDefined (a.blocks.map fun block => block.id) (scanSuccessors scan)
        (scanLiveness scan) id i) ?_ ?_ hpath
    · rintro last ⟨found, hfound, hobserved⟩ hlast
      obtain ⟨hblock, rfl⟩ := h.laidOut.block_of_id hlast hfound
      exact .here ((h.mem_exposed hblock).2 hobserved)
    · rintro first next ⟨found, hfound, hkept, hnext⟩ ih hfirst
      obtain ⟨hblock, rfl⟩ := h.laidOut.block_of_id hfirst hfound
      have hreach := h.laidOut.closed found hblock next hnext
      refine .head ⟨?_, (h.mem_successors hblock).2 hnext, hreach⟩ (ih hreach)
      exact fun hdefined => hkept ((h.mem_definitions hblock).1 hdefined)

/-- A local may be used from a block exactly when a path from it observes a user of it. -/
theorem ScannedLayout.containsAt_mayUse_iff (h : ScannedLayout hir a sourceRoots scan)
    {id : BlockId} (hmem : id ∈ a.blocks.map fun block => block.id) :
    containsAt a.layout.mayUseFromBlock id i = true ↔
      ObservedOnPath hir a.layout.localIds sourceRoots i id := by
  have hmay := h.laidOut.mayUse
  rw [propagateBlockFacts, Option.map_eq_some_iff] at hmay
  obtain ⟨stable, hstable, hfacts⟩ := hmay
  have hsame : ∀ id ∈ (a.blocks.map fun block => block.id).reverse,
      ∀ table : BlockId → RootSet (layoutLocalIds a.blocks).length,
      blockTransfer (a.blocks.map fun block => block.id) scan.blockSuccessors scan.blockLiveness
          a.layout.visibleLocalsByBlock .AnyPath id table =
        pathTransfer (a.blocks.map fun block => block.id) (scanSuccessors scan)
          (scanLiveness scan) (fun _ => ∅) .AnyPath id table := by
    intro id hid table
    obtain ⟨block, hblock, rfl⟩ := List.mem_map.1 (List.mem_reverse.1 hid)
    obtain ⟨before, hscanned⟩ := h.block block hblock
    simp only [blockTransfer, pathTransfer, scanSuccessors, scanLiveness, hscanned.liveness_eq,
      Option.getD_some]
  rw [sweepUntilStable_congr hsame] at hstable
  have hin := mem_stable_anyPath (i := i) (fun _ => ∅) hstable hmem
  rw [← h.readBeforeDefined_iff hmem, ← hin, containsAt, ← hfacts]
  simp only [if_pos hmem, decide_eq_true_eq]

/-! ## Future use -/

/-- A statement of the block, at a key past the point, writes or loads a user of the local. -/
def UsedByStatementAfter (hir : HirModule) {n : Nat} (layout : FunctionLayout n)
    (sourceRoots : Fin n → RootSet n) (block : HirBlock) (i : Fin n) (order : Int) : Prop :=
  ∃ user, Users sourceRoots i user ∧ ∃ statement ∈ block.statements,
    StatementUses hir.expressions (layout.localIds user) statement ∧
    order < layout.statementOrderOrUnknown statement.id

/-- The terminator of the block, at a key past the point, reads the local itself. -/
def ReadByTerminatorAfter (hir : HirModule) {n : Nat} (layout : FunctionLayout n)
    (block : HirBlock) (i : Fin n) (order : Int) : Prop :=
  TerminatorReads hir.expressions (layout.localIds i) block.terminator ∧
    order < layout.terminatorOrderOrUnknown block.id

/-- A statement or the terminator of the block, at a key past the point, reads the local. -/
def ReadAfter (hir : HirModule) {n : Nat} (layout : FunctionLayout n) (block : HirBlock)
    (i : Fin n) (order : Int) : Prop :=
  (∃ statement ∈ block.statements,
    StatementReads hir.expressions (layout.localIds i) statement ∧
    order < layout.statementOrderOrUnknown statement.id) ∨
  ReadByTerminatorAfter hir layout block i order

theorem ScannedLayout.lt_maxUse_iff (h : ScannedLayout hir a sourceRoots scan)
    (hblock : block ∈ a.blocks) (order : Int) :
    a.layout.localHasFutureUseInBlock block.id i order = true ↔
      order < -1 ∨ UsedByStatementAfter hir a.layout sourceRoots block i order ∨
        ReadByTerminatorAfter hir a.layout block i order := by
  obtain ⟨before, hscanned⟩ := h.block block hblock
  have hstatement : ∀ {earlier statement later},
      block.statements = earlier ++ statement :: later →
      a.layout.statementOrderOrUnknown statement.id = before.nextOrderKey + earlier.length := by
    intro earlier statement later hsplit
    rw [FunctionLayout.statementOrderOrUnknown, h.laidOut.statementOrder,
      hscanned.statement_order earlier statement later hsplit]
    rfl
  have hterminator : a.layout.terminatorOrderOrUnknown block.id =
      before.nextOrderKey + block.statements.length := by
    rw [FunctionLayout.terminatorOrderOrUnknown, h.laidOut.terminatorOrder,
      hscanned.terminator_order]
    rfl
  rw [FunctionLayout.localHasFutureUseInBlock, h.laidOut.maxUse, hscanned.maxUse_eq]
  simp only [decide_eq_true_eq]
  rw [lt_scanBlockBody hir h.laidOut.localIds_injective h.closed hscanned.start_nonneg,
    ReadByTerminatorAfter, hterminator]
  refine or_congr Iff.rfl (or_congr ⟨?_, ?_⟩ Iff.rfl)
  · rintro ⟨user, earlier, statement, later, huser, hsplit, huse, hlt⟩
    refine ⟨user, huser, statement, ?_, huse, ?_⟩
    · rw [hsplit]
      exact List.mem_append_right _ List.mem_cons_self
    · rw [hstatement hsplit]
      exact hlt
  · rintro ⟨user, huser, statement, hmem, huse, hlt⟩
    obtain ⟨earlier, later, hsplit⟩ := List.append_of_mem hmem
    rw [hstatement hsplit] at hlt
    exact ⟨user, earlier, statement, later, huser, hsplit, huse, hlt⟩

/-- What the layout answers: a use in the rest of the block, or on a path from a successor. -/
theorem ScannedLayout.futureUseKind_ne_none_iff (h : ScannedLayout hir a sourceRoots scan)
    (hblock : block ∈ a.blocks) (order : Int) :
    a.layout.futureUseKind block.id i order ≠ .None ↔
      order < -1 ∨ UsedByStatementAfter hir a.layout sourceRoots block i order ∨
        ReadByTerminatorAfter hir a.layout block i order ∨
        ∃ successor ∈ block.terminator.targets,
          ObservedOnPath hir a.layout.localIds sourceRoots i successor := by
  obtain ⟨before, hscanned⟩ := h.block block hblock
  have hsuccessors : a.layout.blockSuccessors block.id = some (scanSuccessors scan block.id) := by
    rw [h.laidOut.successors, scanSuccessors, hscanned.successors_eq, Option.getD_some]
  rw [FunctionLayout.futureUseKind_ne_none_iff, h.lt_maxUse_iff hblock, or_assoc, or_assoc]
  refine or_congr Iff.rfl (or_congr Iff.rfl (or_congr Iff.rfl ⟨?_, ?_⟩))
  · rintro ⟨successors, hsome, successor, hmem, hmay⟩
    rw [hsuccessors] at hsome
    cases hsome
    have htarget := (h.mem_successors hblock).1 hmem
    exact ⟨successor, htarget,
      (h.containsAt_mayUse_iff (h.laidOut.closed block hblock successor htarget)).1 hmay⟩
  · rintro ⟨successor, htarget, hpath⟩
    exact ⟨_, hsuccessors, successor, (h.mem_successors hblock).2 htarget,
      (h.containsAt_mayUse_iff (h.laidOut.closed block hblock successor htarget)).2 hpath⟩

end Exact

/-- A read of a carrier in a block past a point is a future use of its source there exactly when
the terminator does not read the carrier past the point, or something else uses the source. -/
theorem carrierRead_covered_iff {hir : HirModule} (hunique : UniqueNodeIds hir)
    {function : HirFunction} {a : AnalysedFunction} (h : analysedFunction hir function = some a)
    {sourceRoots : Fin (layoutLocalIds a.blocks).length →
      RootSet (layoutLocalIds a.blocks).length}
    (hroots : compilerAliasSourceRoots hir a.layout.localIds
      (a.blocks.flatMap fun block => block.statements) = some sourceRoots)
    {block : HirBlock} (hblock : block ∈ a.blocks)
    {carrier source : Fin (layoutLocalIds a.blocks).length}
    (hsource : source ∈ sourceRoots carrier) (order : Int) :
    (ReadAfter hir a.layout block carrier order →
        a.layout.futureUseKind block.id source order ≠ .None) ↔
      ¬ ReadByTerminatorAfter hir a.layout block carrier order ∨ order < -1 ∨
        UsedByStatementAfter hir a.layout sourceRoots block source order ∨
        ReadByTerminatorAfter hir a.layout block source order ∨
        ∃ successor ∈ block.terminator.targets,
          ObservedOnPath hir a.layout.localIds sourceRoots source successor := by
  obtain ⟨roots, scan, hroots', hlaid, hblocks⟩ := scanned_of_analysed hunique h
  rw [hroots] at hroots'
  cases hroots'
  have hscanned : ScannedLayout hir a sourceRoots scan :=
    ⟨hlaid, closed_compilerAliasSourceRoots hroots, hblocks⟩
  rw [hscanned.futureUseKind_ne_none_iff hblock]
  constructor
  · intro hcovered
    by_cases hread : ReadByTerminatorAfter hir a.layout block carrier order
    · exact .inr (hcovered (.inr hread))
    · exact .inl hread
  · rintro (hunread | hused) hread
    · obtain ⟨statement, hmem, hreads, hlt⟩ := hread.resolve_right hunread
      exact .inr (.inl ⟨carrier, .inr hsource, statement, hmem, .inr hreads, hlt⟩)
    · exact hused

/-! Local 1 is a compiler temporary that carries local 0, and the block returns it. -/

def carrierExpression (id : HirValueId) : HirExpression :=
  ⟨.Load ⟨if id = ⟨0⟩ then ⟨0⟩ else ⟨1⟩, []⟩, ⟨0⟩, .Place⟩

theorem carrierExpression_rank (id : HirValueId) :
    ∀ child ∈ (carrierExpression id).kind.childValues, 0 < 0 :=
  fun _ hchild => absurd hchild List.not_mem_nil

def carrierExpressions : HirExpressionStore :=
  ⟨carrierExpression, fun _ => 0, carrierExpression_rank⟩

def carrierBlock : HirBlock where
  id := ⟨0⟩
  region := ⟨0⟩
  locals := [⟨⟨0⟩, ⟨0⟩, true, ⟨0⟩⟩, ⟨⟨1⟩, ⟨0⟩, true, ⟨0⟩⟩]
  statements := [⟨⟨0⟩, .Write (.DefineLocal ⟨1⟩) ⟨0⟩⟩]
  terminator := .Return [⟨1⟩]

def carrierModule : HirModule :=
  ⟨carrierExpressions, [carrierBlock], [], [⟨⟨0⟩, none⟩],
    fun target => if target = ⟨1⟩ then some .CompilerTemp else none⟩

def carrierFunction : HirFunction := ⟨⟨0⟩, ⟨0⟩, [⟨0⟩], [], none⟩

def carrierAnalysed : AnalysedFunction :=
  (analysedFunction carrierModule carrierFunction).get (by decide +kernel)

def carrierRoots : Fin (layoutLocalIds carrierAnalysed.blocks).length →
    RootSet (layoutLocalIds carrierAnalysed.blocks).length :=
  (compilerAliasSourceRoots carrierModule carrierAnalysed.layout.localIds
    (carrierAnalysed.blocks.flatMap fun block => block.statements)).get (by decide +kernel)

def carriedIndex : Fin (layoutLocalIds carrierAnalysed.blocks).length := ⟨0, by decide +kernel⟩

def carrierIndex : Fin (layoutLocalIds carrierAnalysed.blocks).length := ⟨1, by decide +kernel⟩

theorem carrier_read_by_return {order : Int} (h : order < 1) :
    ReadAfter carrierModule carrierAnalysed.layout carrierBlock carrierIndex order := by
  have hreads : ReadsLocal carrierModule.expressions
      (carrierAnalysed.layout.localIds carrierIndex) ⟨1⟩ := by
    have hkind : (carrierModule.expressions.expression ⟨1⟩).kind = .Load ⟨⟨1⟩, []⟩ := rfl
    exact .load hkind (by decide +kernel)
  have hkey : carrierAnalysed.layout.terminatorOrderOrUnknown carrierBlock.id = 1 := by
    decide +kernel
  refine .inr ⟨.inl ⟨⟨1⟩, List.mem_singleton.2 rfl, hreads⟩, ?_⟩
  rw [hkey]
  exact h

/-- After the carrier is defined only the terminator reads it, and its source has no future use. -/
theorem carrier_read_by_terminator_unseen :
    carriedIndex ∈ carrierRoots carrierIndex ∧
      carrierModule.localOriginKind (carrierAnalysed.layout.localIds carrierIndex) =
        some .CompilerTemp ∧
      ReadAfter carrierModule carrierAnalysed.layout carrierBlock carrierIndex 0 ∧
      carrierAnalysed.layout.futureUseKind carrierBlock.id carriedIndex 0 = .None :=
  ⟨by decide +kernel, by decide +kernel, carrier_read_by_return (by decide), by decide +kernel⟩

/-- Before the carrier is defined, its definition still uses the source. -/
theorem carrierRead_covered_before :
    carriedIndex ∈ carrierRoots carrierIndex ∧
      carrierAnalysed.layout.futureUseKind carrierBlock.id carriedIndex (-1) ≠ .None := by
  have hunique : UniqueNodeIds carrierModule := by
    simp only [UniqueNodeIds]
    decide
  have hblock : carrierBlock ∈ carrierAnalysed.blocks := by decide +kernel
  have hsource : carriedIndex ∈ carrierRoots carrierIndex := by decide +kernel
  have hused : UsedByStatementAfter carrierModule carrierAnalysed.layout carrierRoots carrierBlock
      carriedIndex (-1) := by
    have hkind : (carrierModule.expressions.expression ⟨0⟩).kind = .Load ⟨⟨0⟩, []⟩ := rfl
    refine ⟨carriedIndex, .inl rfl, ⟨⟨0⟩, .Write (.DefineLocal ⟨1⟩) ⟨0⟩⟩,
      List.mem_singleton.2 rfl, .inr (.inl ⟨⟨0⟩, List.mem_singleton.2 rfl, ?_⟩),
      by decide +kernel⟩
    exact .load hkind (by decide +kernel)
  exact ⟨hsource, (carrierRead_covered_iff hunique (Option.some_get _).symm
    (Option.some_get _).symm hblock hsource (-1)).2 (.inr (.inr (.inl hused)))
    (carrier_read_by_return (by decide))⟩

end Moth.Borrow
