import Moth.Borrow.Liveness

/-!
# What the scan leaves in the maps of a block

The terminator of a block and the carriers are scanned after its statements.
Put together with the statements, one block leaves four maps that agree with
its text (`ScannedBlock`). Later blocks write other keys of the maps and only
raise the last uses, so every block of the scan keeps its facts to the end.
-/

namespace Moth.Borrow

open Moth.Hir Moth.Lib BlockScan

variable {hir : HirModule} {n : Nat} {localIds : Fin n → LocalId}

/-! ## Carriers -/

/-- The second scan differs from the first in raised uses only. -/
def Raised (a b : BlockScan n) : Prop :=
  OrdersLe a b ∧ b.liveness = a.liveness ∧ b.nextOrderKey = a.nextOrderKey ∧
    b.statementOrderById = a.statementOrderById

theorem raised_noteUse {a b : BlockScan n} (h : Raised a b) (key : Int) (i : Fin n) :
    Raised a (b.noteUse key i) :=
  ⟨h.1.trans (le_noteUse key b i), h.2⟩

theorem raised_carryUses (sourceRoots : Fin n → RootSet n) (self : BlockScan n) :
    Raised self (carryUses sourceRoots self) := by
  refine List.foldlRecOn (motive := Raised self) (List.finRange n) _
    ⟨OrdersLe.refl self, rfl, rfl, rfl⟩ ?_
  intro acc hacc target _
  dsimp only
  split
  · exact hacc
  · refine List.foldlRecOn (motive := Raised self) _ _ hacc ?_
    exact fun inner hinner source _ => raised_noteUse hinner _ source

theorem carryReads_spec (sourceRoots : Fin n → RootSet n) (live : BlockLiveness n) :
    live.upwardExposedReads ⊆ (carryReads sourceRoots live).upwardExposedReads ∧
      (carryReads sourceRoots live).definitions = live.definitions := by
  refine List.foldlRecOn (motive := fun acc : BlockLiveness n =>
    live.upwardExposedReads ⊆ acc.upwardExposedReads ∧ acc.definitions = live.definitions)
    (List.finRange n) _ ⟨Finset.Subset.refl _, rfl⟩ ?_
  intro acc hacc carrier _
  split
  · exact ⟨hacc.1.trans Finset.subset_union_left, hacc.2⟩
  · exact hacc

/-! ## Terminators -/

/-- The sources a jump transports. -/
def transportedLocals : HirTerminator → List LocalId
  | .Jump _ args => args.map fun argument => argument.source
  | _ => []

/-- The locals a terminator binds. -/
def boundLocals : HirTerminator → List LocalId
  | .Jump _ args => args.map fun argument => argument.destination
  | .Invoke _ _ _ successResults _ errorResult => successResults ++ [errorResult]
  | _ => []

theorem mem_transportedLocals {store : HirExpressionStore} {terminator : HirTerminator}
    {target : LocalId} :
    target ∈ collectTerminatorLoadedLocals store terminator ∨
        target ∈ transportedLocals terminator ↔ TerminatorReads store target terminator := by
  rw [mem_collectTerminatorLoadedLocals]
  refine or_congr Iff.rfl ?_
  cases terminator <;> simp [transportedLocals]

theorem mem_boundLocals {terminator : HirTerminator} {target : LocalId} :
    target ∈ boundLocals terminator ↔ TerminatorDefines target terminator := by
  cases terminator <;> simp [boundLocals, TerminatorDefines]

theorem scanTerminator_eq (terminatorOrder : Int) (self : BlockScan n)
    (terminator : HirTerminator) :
    scanTerminator hir localIds terminatorOrder self terminator =
      visitLocals localIds
        (fun acc i => (acc.noteDefinition i).noteTerminatorWrite terminatorOrder i)
        (visitLocals localIds (fun acc i => (acc.noteRead i).noteUse terminatorOrder i)
          (visitLocals localIds (fun acc i => (acc.noteUse terminatorOrder i).noteRead i)
            { self with nextOrderKey := terminatorOrder + 1 }
            (collectTerminatorLoadedLocals hir.expressions terminator))
          (transportedLocals terminator))
        (boundLocals terminator) := by
  cases terminator <;> rfl

/-- The liveness of a terminator's three visits. -/
def terminatorLiveness (hir : HirModule) (localIds : Fin n → LocalId) (live : BlockLiveness n)
    (terminator : HirTerminator) : BlockLiveness n :=
  visitLocals localIds BlockLiveness.recordDefinition
    (visitLocals localIds BlockLiveness.recordRead
      (visitLocals localIds BlockLiveness.recordRead live
        (collectTerminatorLoadedLocals hir.expressions terminator))
      (transportedLocals terminator))
    (boundLocals terminator)

theorem noteTerminatorWrite_same (key : Int) (self : BlockScan n) (i : Fin n) :
    (self.noteTerminatorWrite key i).liveness = self.liveness ∧
      (self.noteTerminatorWrite key i).nextOrderKey = self.nextOrderKey ∧
      (self.noteTerminatorWrite key i).statementOrderById = self.statementOrderById := by
  simp only [noteTerminatorWrite]
  split <;> exact ⟨rfl, rfl, rfl⟩

theorem scanTerminator_liveness (key : Int) (self : BlockScan n) (terminator : HirTerminator) :
    (scanTerminator hir localIds key self terminator).liveness =
      terminatorLiveness hir localIds self.liveness terminator := by
  rw [scanTerminator_eq, terminatorLiveness]
  rw [visitLocals_map (f := fun scan : BlockScan n => scan.liveness)
      (g := BlockLiveness.recordDefinition) (fun _ i => (noteTerminatorWrite_same key _ i).1),
    visitLocals_map (f := fun scan : BlockScan n => scan.liveness)
      (g := BlockLiveness.recordRead) (fun _ _ => rfl),
    visitLocals_map (f := fun scan : BlockScan n => scan.liveness)
      (g := BlockLiveness.recordRead) (fun _ _ => rfl)]

theorem le_loadTerminator (key : Int) (acc : BlockScan n) (i : Fin n) :
    OrdersLe acc ((acc.noteUse key i).noteRead i) := le_noteUse key acc i

theorem le_transport (key : Int) (acc : BlockScan n) (i : Fin n) :
    OrdersLe acc ((acc.noteRead i).noteUse key i) := le_noteUse key (acc.noteRead i) i

theorem le_bind (key : Int) (acc : BlockScan n) (i : Fin n) :
    OrdersLe acc ((acc.noteDefinition i).noteTerminatorWrite key i) :=
  le_noteTerminatorWrite key (acc.noteDefinition i) i

theorem le_scanTerminator (key : Int) (self : BlockScan n) (terminator : HirTerminator) :
    OrdersLe self (scanTerminator hir localIds key self terminator) := by
  rw [scanTerminator_eq]
  have hentered : OrdersLe self { self with nextOrderKey := key + 1 } :=
    fun _ => ⟨le_refl _, le_refl _⟩
  refine OrdersLe.trans ?_ (le_visitLocals (le_bind key) _ _)
  refine OrdersLe.trans ?_ (le_visitLocals (le_transport key) _ _)
  exact hentered.trans (le_visitLocals (le_loadTerminator key) _ _)

theorem scanTerminator_same {α : Type} {f : BlockScan n → α} {key : Int}
    (hload : ∀ acc i, f ((acc.noteUse key i).noteRead i) = f acc)
    (htransport : ∀ acc i, f ((acc.noteRead i).noteUse key i) = f acc)
    (hbind : ∀ acc i, f ((acc.noteDefinition i).noteTerminatorWrite key i) = f acc)
    (self : BlockScan n) (terminator : HirTerminator) :
    f (scanTerminator hir localIds key self terminator) =
      f { self with nextOrderKey := key + 1 } := by
  rw [scanTerminator_eq, visitLocals_same hbind, visitLocals_same htransport,
    visitLocals_same hload]

variable (hir localIds) in
theorem scanTerminator_order (key : Int) (self : BlockScan n) (terminator : HirTerminator) :
    (scanTerminator hir localIds key self terminator).nextOrderKey = key + 1 ∧
      (scanTerminator hir localIds key self terminator).statementOrderById =
        self.statementOrderById :=
  ⟨scanTerminator_same (f := fun scan : BlockScan n => scan.nextOrderKey) (fun _ _ => rfl)
      (fun _ _ => rfl) (fun _ i => (noteTerminatorWrite_same key _ i).2.1) self terminator,
    scanTerminator_same (f := fun scan : BlockScan n => scan.statementOrderById) (fun _ _ => rfl)
      (fun _ _ => rfl) (fun _ i => (noteTerminatorWrite_same key _ i).2.2) self terminator⟩

theorem scanTerminator_usedAt (hinj : Function.Injective localIds) {key : Int}
    {self : BlockScan n} {terminator : HirTerminator} {i : Fin n}
    (h : TerminatorReads hir.expressions (localIds i) terminator) :
    UsedAt key i (scanTerminator hir localIds key self terminator) := by
  rw [scanTerminator_eq]
  refine UsedAt.mono ?_ (le_visitLocals (le_bind key) _ _)
  cases mem_transportedLocals.2 h with
  | inl hloaded =>
      refine UsedAt.mono ?_ (le_visitLocals (le_transport key) _ _)
      exact usedAt_visitLocals hinj (le_loadTerminator key)
        (fun acc i => noteUse_usedAt key acc i) hloaded
  | inr htransported =>
      exact usedAt_visitLocals hinj (le_transport key) (fun acc i => noteUse_usedAt key _ i)
        htransported

theorem mem_definitions_terminatorLiveness (hinj : Function.Injective localIds)
    {live : BlockLiveness n} {terminator : HirTerminator} {i : Fin n} :
    i ∈ (terminatorLiveness hir localIds live terminator).definitions ↔
      i ∈ live.definitions ∨ TerminatorDefines (localIds i) terminator := by
  rw [terminatorLiveness, mem_visitDefinitions hinj, visitReads_definitions,
    visitReads_definitions, mem_boundLocals]

theorem terminatorLiveness_exposed {live : BlockLiveness n} {terminator : HirTerminator}
    {i : Fin n} (h : i ∈ live.upwardExposedReads) :
    i ∈ (terminatorLiveness hir localIds live terminator).upwardExposedReads := by
  rw [terminatorLiveness, visitDefinitions_exposed]
  exact visitReads_exposed (visitReads_exposed h _) _

theorem terminatorLiveness_read (hinj : Function.Injective localIds) {live : BlockLiveness n}
    {terminator : HirTerminator} {i : Fin n} (h : i ∉ live.definitions)
    (hread : TerminatorReads hir.expressions (localIds i) terminator) :
    i ∈ (terminatorLiveness hir localIds live terminator).upwardExposedReads := by
  rw [terminatorLiveness, visitDefinitions_exposed]
  cases mem_transportedLocals.2 hread with
  | inl hloaded => exact visitReads_exposed (visitReads_self hinj h hloaded) _
  | inr htransported =>
      exact visitReads_self hinj (by rw [visitReads_definitions]; exact h) htransported

/-! ## One block -/

variable (hir) in
/-- The scan of a block: its keys, its liveness, and the uses of its operations. -/
theorem scanBlockBody_spec (hinj : Function.Injective localIds) (sourceRoots : Fin n → RootSet n)
    (self : LayoutScan n) (block : HirBlock) :
    let key := self.nextOrderKey + block.statements.length
    let scanned := scanBlockBody hir localIds sourceRoots self block
    scanned.1 = key ∧ scanned.2.nextOrderKey = key + 1 ∧
    scanned.2.liveness = terminatorLiveness hir localIds
      (statementsLiveness hir localIds (.new n) block.statements) block.terminator ∧
    (∀ i, self.localLastUseOrder i ≤ scanned.2.localLastUseOrder i) ∧
    (∀ id, (∀ statement ∈ block.statements, statement.id ≠ id) →
      scanned.2.statementOrderById id = self.statementOrderById id) ∧
    (∀ i, TerminatorReads hir.expressions (localIds i) block.terminator →
      UsedAt key i scanned.2) ∧
    ∀ earlier statement later, block.statements = earlier ++ statement :: later →
      (∀ other ∈ later, other.id ≠ statement.id) →
      scanned.2.statementOrderById statement.id = some (self.nextOrderKey + earlier.length) ∧
      ∀ i, StatementReads hir.expressions (localIds i) statement →
        UsedAt (self.nextOrderKey + earlier.length) i scanned.2 := by
  intro key scanned
  let entered : BlockScan n := {
    nextOrderKey := self.nextOrderKey
    localFirstWriteOrder := self.localFirstWriteOrder
    localLastUseOrder := self.localLastUseOrder
    statementOrderById := self.statementOrderById
    maxUseOrder := fun _ => -1
    liveness := .new n }
  let statements := block.statements.foldl (scanStatement hir localIds) entered
  let carried := carryUses sourceRoots statements
  obtain ⟨hnext, hlive, hle, hother, hkeys⟩ :=
    scanStatements_spec hir hinj block.statements entered
  obtain ⟨hcarryLe, hcarryLive, hcarryNext, hcarryOrder⟩ := raised_carryUses sourceRoots statements
  have hkey : carried.nextOrderKey = key := hcarryNext.trans hnext
  have hscanned : scanned = (key, scanTerminator hir localIds key carried block.terminator) := by
    rw [← hkey]
    rfl
  obtain ⟨hfinalNext, hfinalOrder⟩ :=
    scanTerminator_order hir localIds key carried block.terminator
  have hfinalLe : OrdersLe statements scanned.2 := by
    rw [hscanned]
    exact hcarryLe.trans (le_scanTerminator key carried block.terminator)
  have horder : scanned.2.statementOrderById = statements.statementOrderById := by
    rw [hscanned]
    exact hfinalOrder.trans hcarryOrder
  refine ⟨by rw [hscanned], by rw [hscanned]; exact hfinalNext, ?_, ?_, ?_, ?_, ?_⟩
  · rw [hscanned, ← hlive, ← hcarryLive]
    exact scanTerminator_liveness key carried block.terminator
  · exact fun i => (hle.trans hfinalLe i).2
  · intro id hid
    rw [horder]
    exact hother id hid
  · intro i hread
    rw [hscanned]
    exact scanTerminator_usedAt hinj hread
  · intro earlier statement later hsplit hlater
    obtain ⟨hat, huse⟩ := hkeys earlier statement later hsplit hlater
    exact ⟨by rw [horder]; exact hat, fun i hread => (huse i hread).mono hfinalLe⟩

/-! ## All blocks -/

/-- What the maps of a finished scan hold about one of its blocks, whose first key is `start`. -/
structure ScannedBlock (hir : HirModule) (localIds : Fin n → LocalId) (reachable : List BlockId)
    (scan : LayoutScan n) (block : HirBlock) (start : Int) (maxUse : Fin n → Int)
    (live : BlockLiveness n) : Prop where
  start_nonneg : 0 ≤ start
  maxUse_eq : scan.blockLocalMaxUseOrder block.id = some maxUse
  successors_eq : scan.blockSuccessors block.id =
    some (block.terminator.targets.filter fun successor => successor ∈ reachable)
  liveness_eq : scan.blockLiveness block.id = some live
  terminator_order :
    scan.terminatorOrderByBlock block.id = some (start + block.statements.length)
  terminator_use : ∀ i, TerminatorReads hir.expressions (localIds i) block.terminator →
    start + block.statements.length ≤ maxUse i ∧
      start + block.statements.length ≤ scan.localLastUseOrder i
  statement_order : ∀ earlier statement later, block.statements = earlier ++ statement :: later →
    scan.statementOrderById statement.id = some (start + earlier.length)
  statement_use : ∀ earlier statement later, block.statements = earlier ++ statement :: later →
    ∀ i, StatementReads hir.expressions (localIds i) statement →
      start + earlier.length ≤ maxUse i ∧ start + earlier.length ≤ scan.localLastUseOrder i
  mem_definitions : ∀ i,
    i ∈ live.definitions ↔ Redefines (localIds i) block.terminator block.statements
  exposed : ∀ i, ReadsFirst hir.expressions (localIds i) block.terminator block.statements →
    i ∈ live.upwardExposedReads

theorem not_mem_later_of_nodup {statements earlier later : List HirStatement}
    {statement : HirStatement} (hnodup : (statements.map fun s => s.id).Nodup)
    (hsplit : statements = earlier ++ statement :: later) :
    ∀ other ∈ later, other.id ≠ statement.id := by
  rw [hsplit, List.map_append, List.map_cons] at hnodup
  have htail := (List.nodup_append.1 hnodup).2.1
  intro other hmem heq
  exact (List.nodup_cons.1 htail).1 (heq ▸ List.mem_map_of_mem hmem)

variable (hir) in
/-- A block as its own scan leaves it. -/
theorem scanBlock_scanned (hinj : Function.Injective localIds) (reachable : List BlockId)
    (sourceRoots : Fin n → RootSet n) {self : LayoutScan n} {block : HirBlock}
    (hstart : 0 ≤ self.nextOrderKey)
    (hnodup : (block.statements.map fun s => s.id).Nodup) :
    ScannedBlock hir localIds reachable
      (scanBlock hir localIds reachable sourceRoots self block) block self.nextOrderKey
      (scanBlockBody hir localIds sourceRoots self block).2.maxUseOrder
      (carryReads sourceRoots (scanBlockBody hir localIds sourceRoots self block).2.liveness) := by
  obtain ⟨hkey, -, hlive, -, -, hterminator, hstatements⟩ :=
    scanBlockBody_spec hir hinj sourceRoots self block
  refine ⟨hstart, Function.update_self .., Function.update_self .., Function.update_self ..,
    ?_, hterminator, ?_, ?_, ?_, ?_⟩
  · rw [← hkey]
    exact Function.update_self ..
  · intro earlier statement later hsplit
    exact (hstatements earlier statement later hsplit (not_mem_later_of_nodup hnodup hsplit)).1
  · intro earlier statement later hsplit
    exact (hstatements earlier statement later hsplit (not_mem_later_of_nodup hnodup hsplit)).2
  · intro i
    rw [(carryReads_spec sourceRoots _).2, hlive, mem_definitions_terminatorLiveness hinj,
      mem_definitions_statementsLiveness hinj]
    simp [Redefines, BlockLiveness.new]
  · intro i hread
    refine (carryReads_spec sourceRoots _).1 ?_
    rw [hlive]
    have hfresh : i ∉ (BlockLiveness.new n).definitions := Finset.notMem_empty i
    cases statementsLiveness_readsFirst hinj hfresh hread with
    | inl hexposed => exact terminatorLiveness_exposed hexposed
    | inr hlast => exact terminatorLiveness_read hinj hlast.1 hlast.2

/-- The scan of another block leaves a block's facts in place. -/
theorem ScannedBlock.keep (hinj : Function.Injective localIds) {reachable : List BlockId}
    {sourceRoots : Fin n → RootSet n} {self : LayoutScan n} {block other : HirBlock}
    {start : Int} {maxUse : Fin n → Int} {live : BlockLiveness n}
    (h : ScannedBlock hir localIds reachable self block start maxUse live)
    (hne : block.id ≠ other.id)
    (hdisjoint : ∀ statement ∈ block.statements, ∀ s ∈ other.statements,
      s.id ≠ statement.id) :
    ScannedBlock hir localIds reachable (scanBlock hir localIds reachable sourceRoots self other)
      block start maxUse live := by
  obtain ⟨-, -, -, hle, hother, -, -⟩ :=
    scanBlockBody_spec hir hinj sourceRoots self other
  refine ⟨h.start_nonneg, ?_, ?_, ?_, ?_, ?_, ?_, ?_, h.mem_definitions, h.exposed⟩
  · exact (Function.update_of_ne hne _ _).trans h.maxUse_eq
  · exact (Function.update_of_ne hne _ _).trans h.successors_eq
  · exact (Function.update_of_ne hne _ _).trans h.liveness_eq
  · exact (Function.update_of_ne hne _ _).trans h.terminator_order
  · intro i hread
    have hused := h.terminator_use i hread
    exact ⟨hused.1, le_trans hused.2 (hle i)⟩
  · intro earlier statement later hsplit
    have hmem : statement ∈ block.statements := by
      rw [hsplit]
      exact List.mem_append_right _ List.mem_cons_self
    exact (hother _ (hdisjoint statement hmem)).trans
      (h.statement_order earlier statement later hsplit)
  · intro earlier statement later hsplit i hread
    have hused := h.statement_use earlier statement later hsplit i hread
    exact ⟨hused.1, le_trans hused.2 (hle i)⟩

theorem scanBlock_nextOrderKey (hinj : Function.Injective localIds) (reachable : List BlockId)
    (sourceRoots : Fin n → RootSet n) (self : LayoutScan n) (block : HirBlock) :
    (scanBlock hir localIds reachable sourceRoots self block).nextOrderKey =
      self.nextOrderKey + block.statements.length + 1 :=
  (scanBlockBody_spec hir hinj sourceRoots self block).2.1

/-- Blocks of distinct ids and distinct statement ids. -/
def DistinctIds (blocks : List HirBlock) : Prop :=
  (blocks.map fun block => block.id).Nodup ∧
    (blocks.flatMap fun block => block.statements.map fun s => s.id).Nodup

theorem DistinctIds.tail {block : HirBlock} {rest : List HirBlock}
    (h : DistinctIds (block :: rest)) : DistinctIds rest := by
  have hids := h.1
  have hstatements := h.2
  rw [List.map_cons] at hids
  rw [List.flatMap_cons] at hstatements
  exact ⟨(List.nodup_cons.1 hids).2, (List.nodup_append.1 hstatements).2.1⟩

theorem DistinctIds.head {block other : HirBlock} {rest : List HirBlock}
    (h : DistinctIds (block :: rest)) (hmem : other ∈ rest) :
    block.id ≠ other.id ∧
      ∀ statement ∈ block.statements, ∀ s ∈ other.statements, s.id ≠ statement.id := by
  have hids := h.1
  have hstatements := h.2
  rw [List.map_cons] at hids
  rw [List.flatMap_cons] at hstatements
  refine ⟨?_, ?_⟩
  · intro heq
    exact (List.nodup_cons.1 hids).1 (heq ▸ List.mem_map_of_mem hmem)
  · intro statement hstatement s hs heq
    refine (List.nodup_append.1 hstatements).2.2 _ (List.mem_map_of_mem hstatement) _ ?_ heq.symm
    exact List.mem_flatMap.2 ⟨other, hmem, List.mem_map_of_mem hs⟩

theorem ScannedBlock.keep_all (hinj : Function.Injective localIds) {reachable : List BlockId}
    {sourceRoots : Fin n → RootSet n} {block : HirBlock} {start : Int} {maxUse : Fin n → Int}
    {live : BlockLiveness n} (rest : List HirBlock) {self : LayoutScan n}
    (h : ScannedBlock hir localIds reachable self block start maxUse live)
    (hrest : ∀ other ∈ rest, block.id ≠ other.id ∧
      ∀ statement ∈ block.statements, ∀ s ∈ other.statements, s.id ≠ statement.id) :
    ScannedBlock hir localIds reachable
      (rest.foldl (scanBlock hir localIds reachable sourceRoots) self) block start maxUse live := by
  induction rest generalizing self with
  | nil => exact h
  | cons other rest ih =>
      have hother := hrest other List.mem_cons_self
      exact ih (h.keep hinj hother.1 hother.2) fun b hb => hrest b (List.mem_cons_of_mem _ hb)

/-- The finished scan has the facts of every block it was given. -/
theorem scanBlocks_scanned (hir : HirModule) (hinj : Function.Injective localIds)
    (reachable : List BlockId) (sourceRoots : Fin n → RootSet n) {blocks : List HirBlock}
    (hids : DistinctIds blocks) {self : LayoutScan n} (hstart : 0 ≤ self.nextOrderKey) :
    ∀ block ∈ blocks, ∃ before : LayoutScan n, ScannedBlock hir localIds reachable
      (blocks.foldl (scanBlock hir localIds reachable sourceRoots) self) block before.nextOrderKey
      (scanBlockBody hir localIds sourceRoots before block).2.maxUseOrder
      (carryReads sourceRoots
        (scanBlockBody hir localIds sourceRoots before block).2.liveness) := by
  induction blocks generalizing self with
  | nil => exact fun block hmem => absurd hmem List.not_mem_nil
  | cons first rest ih =>
      intro block hmem
      cases List.mem_cons.1 hmem with
      | inl heq =>
          subst heq
          have hnodup := (List.nodup_append.1 (List.flatMap_cons ▸ hids.2)).1
          have hscanned := scanBlock_scanned hir hinj reachable sourceRoots hstart hnodup
          exact ⟨self, hscanned.keep_all hinj rest fun other hother => hids.head hother⟩
      | inr hin =>
          refine ih hids.tail ?_ block hin
          rw [scanBlock_nextOrderKey hinj]
          omega

end Moth.Borrow
