import Moth.Borrow.ScanFacts

/-!
# What a block's maps hold exactly

`ScanFacts.lean` bounds the maps of a block from below, which is what safety
needs. Here they are told exactly: which uses raise a local's largest key past
a point, and which reads expose a local. A local is used by a statement that
writes or loads it and by a terminator that reads it; a carrier's uses by
statements count for its sources too, and its exposed reads do, but not its
uses by the terminator, which is scanned after the uses are carried.
-/

namespace Moth.Borrow

open Moth.Hir Moth.Lib BlockScan

variable {hir : HirModule} {n : Nat} {localIds : Fin n → LocalId}

/-! ## Keys -/

/-- The statement writes or loads the local. -/
def StatementUses (store : HirExpressionStore) (target : LocalId) (statement : HirStatement) :
    Prop :=
  target ∈ collectStatementWrittenLocals statement ∨ StatementReads store target statement

theorem lt_noteUse {order key : Int} {self : BlockScan n} {i j : Fin n} :
    order < (self.noteUse key j).maxUseOrder i ↔
      order < self.maxUseOrder i ∨ i = j ∧ order < key := by
  by_cases heq : i = j
  · subst heq
    simp [noteUse]
  · simp [noteUse, heq]

theorem noteFirstWrite_maxUseOrder (key : Int) (self : BlockScan n) (i : Fin n) :
    (self.noteFirstWrite key i).maxUseOrder = self.maxUseOrder := by
  simp only [noteFirstWrite]
  split <;> rfl

theorem noteTerminatorWrite_maxUseOrder (key : Int) (self : BlockScan n) (i : Fin n) :
    (self.noteTerminatorWrite key i).maxUseOrder = self.maxUseOrder := by
  simp only [noteTerminatorWrite]
  split <;> rfl

theorem lt_noteWrite {order key : Int} {self : BlockScan n} {i j : Fin n} :
    order < (self.noteWrite key j).maxUseOrder i ↔
      order < self.maxUseOrder i ∨ i = j ∧ order < key := by
  rw [noteWrite, lt_noteUse, noteFirstWrite_maxUseOrder]

/-- A visit raises the visited locals past a point exactly when its key is past it. -/
theorem lt_visitLocals (hinj : Function.Injective localIds) {order key : Int}
    {visitor : BlockScan n → Fin n → BlockScan n}
    (hvisit : ∀ acc i j, order < (visitor acc j).maxUseOrder i ↔
      order < acc.maxUseOrder i ∨ i = j ∧ order < key)
    {self : BlockScan n} {locals : List LocalId} {i : Fin n} :
    order < (visitLocals localIds visitor self locals).maxUseOrder i ↔
      order < self.maxUseOrder i ∨ localIds i ∈ locals ∧ order < key := by
  exact visitLocals_iff hinj (P := fun acc : BlockScan n => order < acc.maxUseOrder i)
    (K := fun _ => order < key) (fun acc j => hvisit acc i j) fun _ _ => Iff.rfl

theorem lt_scanStatement (hinj : Function.Injective localIds) {order : Int}
    {self : BlockScan n} {statement : HirStatement} {i : Fin n} :
    order < (scanStatement hir localIds self statement).maxUseOrder i ↔
      order < self.maxUseOrder i ∨
        StatementUses hir.expressions (localIds i) statement ∧ order < self.nextOrderKey := by
  show order < (noteStatement hir localIds self statement).maxUseOrder i ↔ _
  rw [noteStatement, lt_visitLocals hinj (fun _ _ _ => lt_noteUse),
    lt_visitLocals hinj (fun _ _ _ => lt_noteWrite), mem_collectStatementLoadedLocals,
    StatementUses]
  show (order < self.maxUseOrder i ∨ _) ∨ _ ↔ _
  tauto

/-- The statements of a block raise a local past a point where one of them, at a key past it,
uses the local. -/
theorem lt_scanStatements (hinj : Function.Injective localIds) {order : Int}
    (statements : List HirStatement) (self : BlockScan n) (i : Fin n) :
    order < (statements.foldl (scanStatement hir localIds) self).maxUseOrder i ↔
      order < self.maxUseOrder i ∨ ∃ earlier statement later,
        statements = earlier ++ statement :: later ∧
        StatementUses hir.expressions (localIds i) statement ∧
        order < self.nextOrderKey + earlier.length := by
  induction statements generalizing self with
  | nil => simp
  | cons first rest ih =>
      rw [List.foldl_cons, ih, lt_scanStatement hinj, (scanStatement_order hir localIds self first).1,
        or_assoc]
      refine or_congr Iff.rfl ⟨?_, ?_⟩
      · rintro (⟨huse, hkey⟩ | ⟨earlier, statement, later, rfl, huse, hkey⟩)
        · exact ⟨[], first, rest, rfl, huse, by simpa using hkey⟩
        · refine ⟨first :: earlier, statement, later, rfl, huse, ?_⟩
          rw [List.length_cons]
          push_cast
          omega
      · rintro ⟨earlier, statement, later, hsplit, huse, hkey⟩
        cases earlier with
        | nil =>
            obtain ⟨rfl, rfl⟩ := List.cons.inj hsplit
            exact .inl ⟨huse, by simpa using hkey⟩
        | cons head tail =>
            obtain ⟨rfl, rfl⟩ := List.cons.inj hsplit
            refine .inr ⟨tail, statement, later, rfl, huse, ?_⟩
            rw [List.length_cons] at hkey
            push_cast at hkey
            omega

/-! ## Carriers -/

/-- Sources of sources are sources. -/
def ClosedRoots (sourceRoots : Fin n → RootSet n) : Prop :=
  ∀ target middle source, middle ∈ sourceRoots target → source ∈ sourceRoots middle →
    source ∈ sourceRoots target

theorem closed_compilerAliasSourceRoots {statements : List HirStatement}
    {sourceRoots : Fin n → RootSet n}
    (h : compilerAliasSourceRoots hir localIds statements = some sourceRoots) :
    ClosedRoots sourceRoots := by
  intro target middle source hmiddle hsource
  have hfixed := sweepUntilStable_fixed h target (List.mem_finRange target)
  rw [hfixed, closeSources]
  exact Finset.mem_union_right _ (Finset.mem_biUnion.2 ⟨middle, hmiddle, hsource⟩)

theorem lt_noteUses {order key : Int} {i : Fin n} (sources : List (Fin n)) (self : BlockScan n) :
    order < (sources.foldl (BlockScan.noteUse key) self).maxUseOrder i ↔
      order < self.maxUseOrder i ∨ i ∈ sources ∧ order < key := by
  induction sources generalizing self with
  | nil => simp
  | cons first rest ih =>
      rw [List.foldl_cons, ih, lt_noteUse, List.mem_cons]
      tauto

/-- Carrying uses back, over the targets in any order: a source is raised past a point where a
carrier of it that is used at all is. -/
theorem lt_carryFold {sourceRoots : Fin n → RootSet n} (hclosed : ClosedRoots sourceRoots)
    (self : BlockScan n) (targets : List (Fin n)) :
    ∀ order i, order < (targets.foldl (fun acc target =>
        let targetUseOrder := acc.maxUseOrder target
        if targetUseOrder < 0 then acc
        else (sourceRoots target).iterOnes.foldl (BlockScan.noteUse targetUseOrder) acc)
        self).maxUseOrder i ↔
      order < self.maxUseOrder i ∨ ∃ target ∈ targets, i ∈ sourceRoots target ∧
        0 ≤ self.maxUseOrder target ∧ order < self.maxUseOrder target := by
  induction targets using List.reverseRecOn with
  | nil => simp
  | append_singleton earlier last ih =>
      intro order i
      rw [List.foldl_append, List.foldl_cons, List.foldl_nil]
      revert ih
      generalize earlier.foldl _ self = acc
      intro ih
      have hle : self.maxUseOrder last ≤ acc.maxUseOrder last := by
        by_contra hlt
        exact lt_irrefl _ ((ih _ last).2 (.inl (not_le.1 hlt)))
      dsimp only
      split
      · next hunused =>
          rw [ih]
          refine or_congr Iff.rfl ⟨?_, ?_⟩
          · rintro ⟨target, hmem, hrest⟩
            exact ⟨target, List.mem_append_left _ hmem, hrest⟩
          · rintro ⟨target, hmem, hroot, hused, hlt⟩
            cases List.mem_append.1 hmem with
            | inl hin => exact ⟨target, hin, hroot, hused, hlt⟩
            | inr hlast =>
                rw [List.mem_singleton.1 hlast] at hused
                omega
      · next hused =>
          rw [lt_noteUses, RootSet.mem_iterOnes, ih order i]
          constructor
          · rintro ((hown | ⟨target, hmem, hrest⟩) | ⟨hroot, hkey⟩)
            · exact .inl hown
            · exact .inr ⟨target, List.mem_append_left _ hmem, hrest⟩
            · -- the key of the last target is its own or that of an earlier carrier of it
              refine .inr ?_
              by_cases hfresh : 0 ≤ self.maxUseOrder last ∧ order < self.maxUseOrder last
              · exact ⟨last, List.mem_append_right _ (List.mem_singleton.2 rfl), hroot, hfresh⟩
              · have hpast : max order (-1) < acc.maxUseOrder last := by
                  rw [max_lt_iff]
                  omega
                rcases (ih _ last).1 hpast with hself | ⟨target, hmem, hlast, hpos, hlt⟩
                · rw [max_lt_iff] at hself
                  omega
                · rw [max_lt_iff] at hlt
                  exact ⟨target, List.mem_append_left _ hmem, hclosed target last i hlast hroot,
                    hpos, hlt.1⟩
          · rintro (hown | ⟨target, hmem, hroot, hpos, hlt⟩)
            · exact .inl (.inl hown)
            · cases List.mem_append.1 hmem with
              | inl hin => exact .inl (.inr ⟨target, hin, hroot, hpos, hlt⟩)
              | inr hlast =>
                  rw [List.mem_singleton.1 hlast] at hroot hlt
                  exact .inr ⟨hroot, by omega⟩

theorem lt_carryUses {sourceRoots : Fin n → RootSet n} (hclosed : ClosedRoots sourceRoots)
    (self : BlockScan n) (order : Int) (i : Fin n) :
    order < (carryUses sourceRoots self).maxUseOrder i ↔
      order < self.maxUseOrder i ∨ ∃ target, i ∈ sourceRoots target ∧
        0 ≤ self.maxUseOrder target ∧ order < self.maxUseOrder target := by
  rw [carryUses, lt_carryFold hclosed]
  simp only [List.mem_finRange, true_and]

/-- A local of the result is exposed itself, or a carrier of it is. -/
theorem mem_carryReads {sourceRoots : Fin n → RootSet n} (hclosed : ClosedRoots sourceRoots)
    (live : BlockLiveness n) (i : Fin n) :
    i ∈ (carryReads sourceRoots live).upwardExposedReads ↔
      i ∈ live.upwardExposedReads ∨
        ∃ carrier ∈ live.upwardExposedReads, i ∈ sourceRoots carrier := by
  have hfold : ∀ (carriers : List (Fin n)) (i : Fin n),
      i ∈ (carriers.foldl (fun acc carrier =>
        if carrier ∈ acc.upwardExposedReads then
          { acc with upwardExposedReads := acc.upwardExposedReads ∪ sourceRoots carrier }
        else acc) live).upwardExposedReads ↔
      i ∈ live.upwardExposedReads ∨
        ∃ carrier ∈ carriers, carrier ∈ live.upwardExposedReads ∧ i ∈ sourceRoots carrier := by
    intro carriers
    induction carriers using List.reverseRecOn with
    | nil => simp
    | append_singleton earlier last ih =>
        intro i
        rw [List.foldl_append, List.foldl_cons, List.foldl_nil]
        revert ih
        generalize earlier.foldl _ live = acc
        intro ih
        split
        · next hlast =>
            rw [Finset.mem_union, ih]
            constructor
            · rintro ((hown | ⟨carrier, hmem, hrest⟩) | hroot)
              · exact .inl hown
              · exact .inr ⟨carrier, List.mem_append_left _ hmem, hrest⟩
              · rcases (ih last).1 hlast with hown | ⟨carrier, hmem, hexposed, hcarried⟩
                · exact .inr ⟨last, List.mem_append_right _ (List.mem_singleton.2 rfl), hown, hroot⟩
                · exact .inr ⟨carrier, List.mem_append_left _ hmem, hexposed,
                    hclosed carrier last i hcarried hroot⟩
            · rintro (hown | ⟨carrier, hmem, hexposed, hroot⟩)
              · exact .inl (.inl hown)
              · cases List.mem_append.1 hmem with
                | inl hin => exact .inl (.inr ⟨carrier, hin, hexposed, hroot⟩)
                | inr heq =>
                    rw [List.mem_singleton.1 heq] at hroot
                    exact .inr hroot
        · next hlast =>
            rw [ih]
            refine or_congr Iff.rfl ⟨?_, ?_⟩
            · rintro ⟨carrier, hmem, hrest⟩
              exact ⟨carrier, List.mem_append_left _ hmem, hrest⟩
            · rintro ⟨carrier, hmem, hexposed, hroot⟩
              cases List.mem_append.1 hmem with
              | inl hin => exact ⟨carrier, hin, hexposed, hroot⟩
              | inr heq =>
                  rw [List.mem_singleton.1 heq] at hexposed
                  exact absurd ((ih last).2 (.inl hexposed)) hlast
  rw [carryReads, hfold]
  simp only [List.mem_finRange, true_and]

/-! ## The terminator -/

theorem lt_scanTerminator (hinj : Function.Injective localIds) {order key : Int}
    {self : BlockScan n} {terminator : HirTerminator} {i : Fin n} :
    order < (scanTerminator hir localIds key self terminator).maxUseOrder i ↔
      order < self.maxUseOrder i ∨
        TerminatorReads hir.expressions (localIds i) terminator ∧ order < key := by
  have hbind : ∀ (acc : BlockScan n) (j : Fin n),
      ((acc.noteDefinition j).noteTerminatorWrite key j).maxUseOrder = acc.maxUseOrder :=
    fun acc j => noteTerminatorWrite_maxUseOrder key (acc.noteDefinition j) j
  have hload : ∀ (acc : BlockScan n) (i j : Fin n),
      order < ((acc.noteUse key j).noteRead j).maxUseOrder i ↔
        order < acc.maxUseOrder i ∨ i = j ∧ order < key := by
    intro acc i j
    show order < (acc.noteUse key j).maxUseOrder i ↔ _
    exact lt_noteUse
  have htransport : ∀ (acc : BlockScan n) (i j : Fin n),
      order < ((acc.noteRead j).noteUse key j).maxUseOrder i ↔
        order < acc.maxUseOrder i ∨ i = j ∧ order < key := by
    intro acc i j
    show _ ↔ order < (acc.noteRead j).maxUseOrder i ∨ _
    exact lt_noteUse
  rw [scanTerminator_eq, visitLocals_same (f := fun scan : BlockScan n => scan.maxUseOrder) hbind,
    lt_visitLocals hinj htransport, lt_visitLocals hinj hload, ← mem_transportedLocals]
  show (order < self.maxUseOrder i ∨ _) ∨ _ ↔ _
  tauto

/-! ## Exposed reads -/

/-- The statement reads the old value of the local, or leaves part of it observable. -/
def StatementObserves (store : HirExpressionStore) (target : LocalId) (statement : HirStatement) :
    Prop :=
  StatementReads store target statement ∨
    target ∈ collectStatementWrittenLocals statement ∧ ¬ StatementDefines target statement

/-- The block observes the local's value at its entry. -/
def ObservesFirst (store : HirExpressionStore) (target : LocalId) (terminator : HirTerminator) :
    List HirStatement → Prop
  | [] => TerminatorReads store target terminator
  | statement :: rest =>
      StatementObserves store target statement ∨
        ¬ StatementDefines target statement ∧ ObservesFirst store target terminator rest

theorem mem_recordRead {live : BlockLiveness n} {i j : Fin n} :
    i ∈ (live.recordRead j).upwardExposedReads ↔
      i ∈ live.upwardExposedReads ∨ i = j ∧ i ∉ live.definitions := by
  simp only [BlockLiveness.recordRead]
  split
  · next hdefined =>
      refine ⟨.inl, ?_⟩
      rintro (hin | ⟨rfl, hnot⟩)
      · exact hin
      · exact absurd hdefined hnot
  · next hdefined =>
      rw [Finset.mem_insert]
      constructor
      · rintro (rfl | hin)
        · exact .inr ⟨rfl, hdefined⟩
        · exact .inl hin
      · rintro (hin | ⟨rfl, -⟩)
        · exact .inr hin
        · exact .inl rfl

theorem mem_visitReads (hinj : Function.Injective localIds) {live : BlockLiveness n}
    {locals : List LocalId} {i : Fin n} :
    i ∈ (visitLocals localIds BlockLiveness.recordRead live locals).upwardExposedReads ↔
      i ∈ live.upwardExposedReads ∨ localIds i ∈ locals ∧ i ∉ live.definitions := by
  refine visitLocals_iff hinj (P := fun acc : BlockLiveness n => i ∈ acc.upwardExposedReads)
    (K := fun acc => i ∉ acc.definitions) (fun acc j => mem_recordRead) fun acc j => ?_
  rw [recordRead_definitions]

theorem mem_recordStatementLiveness (hinj : Function.Injective localIds)
    {live : BlockLiveness n} {statement : HirStatement} {i : Fin n} :
    i ∈ (recordStatementLiveness hir localIds live statement).upwardExposedReads ↔
      i ∈ live.upwardExposedReads ∨ i ∉ live.definitions ∧
        StatementObserves hir.expressions (localIds i) statement := by
  simp only [recordStatementLiveness]
  rw [visitDefinitions_exposed, mem_visitReads hinj, mem_visitReads hinj, visitReads_definitions,
    (visitAssignments_same _ _).1, (visitAssignments_same _ _).2, mem_collectStatementLoadedLocals,
    List.mem_filter, decide_eq_true_eq, mem_collectStatementDefinedLocals, StatementObserves]
  tauto

theorem mem_blockLiveness (hinj : Function.Injective localIds) {terminator : HirTerminator}
    (statements : List HirStatement) (live : BlockLiveness n) (i : Fin n) :
    i ∈ (terminatorLiveness hir localIds (statementsLiveness hir localIds live statements)
        terminator).upwardExposedReads ↔
      i ∈ live.upwardExposedReads ∨ i ∉ live.definitions ∧
        ObservesFirst hir.expressions (localIds i) terminator statements := by
  induction statements generalizing live with
  | nil =>
      rw [statementsLiveness, List.foldl_nil, terminatorLiveness, visitDefinitions_exposed,
        mem_visitReads hinj, mem_visitReads hinj, visitReads_definitions, ObservesFirst,
        ← mem_transportedLocals]
      tauto
  | cons statement rest ih =>
      have hrest := ih (recordStatementLiveness hir localIds live statement)
      rw [mem_recordStatementLiveness hinj, mem_definitions_recordStatementLiveness hinj] at hrest
      rw [statementsLiveness, List.foldl_cons, ObservesFirst]
      refine hrest.trans ?_
      tauto

/-! ## One block -/

variable (hir) in
/-- The largest key of a local in a block is past a point exactly where a use says so. -/
theorem lt_scanBlockBody (hinj : Function.Injective localIds) {sourceRoots : Fin n → RootSet n}
    (hclosed : ClosedRoots sourceRoots) {before : LayoutScan n} (hstart : 0 ≤ before.nextOrderKey)
    (block : HirBlock) (order : Int) (i : Fin n) :
    order < (scanBlockBody hir localIds sourceRoots before block).2.maxUseOrder i ↔
      order < -1 ∨
      (∃ user earlier statement later, (user = i ∨ i ∈ sourceRoots user) ∧
        block.statements = earlier ++ statement :: later ∧
        StatementUses hir.expressions (localIds user) statement ∧
        order < before.nextOrderKey + earlier.length) ∨
      TerminatorReads hir.expressions (localIds i) block.terminator ∧
        order < before.nextOrderKey + block.statements.length := by
  let entered : BlockScan n := {
    nextOrderKey := before.nextOrderKey
    localFirstWriteOrder := before.localFirstWriteOrder
    localLastUseOrder := before.localLastUseOrder
    statementOrderById := before.statementOrderById
    maxUseOrder := fun _ => -1
    liveness := .new n }
  let statements := block.statements.foldl (scanStatement hir localIds) entered
  have hkey : (carryUses sourceRoots statements).nextOrderKey =
      before.nextOrderKey + block.statements.length :=
    (raised_carryUses sourceRoots statements).2.2.1.trans
      (scanStatements_spec hir hinj block.statements entered).1
  have hstatements : ∀ order i, order < statements.maxUseOrder i ↔ order < -1 ∨
      ∃ earlier statement later, block.statements = earlier ++ statement :: later ∧
        StatementUses hir.expressions (localIds i) statement ∧
        order < before.nextOrderKey + earlier.length :=
    fun order i => lt_scanStatements hinj block.statements entered i
  show order < (scanTerminator hir localIds (carryUses sourceRoots statements).nextOrderKey
    (carryUses sourceRoots statements) block.terminator).maxUseOrder i ↔ _
  rw [hkey, lt_scanTerminator hinj, lt_carryUses hclosed, ← or_assoc]
  refine or_congr ⟨?_, ?_⟩ Iff.rfl
  · rintro (hown | ⟨carrier, hroot, -, hcarried⟩)
    · rcases (hstatements order i).1 hown with hlow | ⟨earlier, statement, later, hsplit, hrest⟩
      · exact .inl hlow
      · exact .inr ⟨i, earlier, statement, later, .inl rfl, hsplit, hrest⟩
    · rcases (hstatements order carrier).1 hcarried with
        hlow | ⟨earlier, statement, later, hsplit, hrest⟩
      · exact .inl hlow
      · exact .inr ⟨carrier, earlier, statement, later, .inr hroot, hsplit, hrest⟩
  · rintro (hlow | ⟨user, earlier, statement, later, rfl | hroot, hsplit, huse, hlt⟩)
    · exact .inl ((hstatements order i).2 (.inl hlow))
    · exact .inl ((hstatements order user).2 (.inr ⟨earlier, statement, later, hsplit, huse, hlt⟩))
    · refine .inr ⟨user, hroot, ?_, (hstatements order user).2
        (.inr ⟨earlier, statement, later, hsplit, huse, hlt⟩)⟩
      have hused := (hstatements (-1) user).2
        (.inr ⟨earlier, statement, later, hsplit, huse, by omega⟩)
      omega

variable (hir) in
theorem mem_scanBlockBody (hinj : Function.Injective localIds) {sourceRoots : Fin n → RootSet n}
    (hclosed : ClosedRoots sourceRoots) (before : LayoutScan n) (block : HirBlock) (i : Fin n) :
    i ∈ (carryReads sourceRoots
        (scanBlockBody hir localIds sourceRoots before block).2.liveness).upwardExposedReads ↔
      ∃ user, (user = i ∨ i ∈ sourceRoots user) ∧
        ObservesFirst hir.expressions (localIds user) block.terminator block.statements := by
  obtain ⟨-, -, hlive, -, -, -, -⟩ := scanBlockBody_spec hir hinj sourceRoots before block
  have hexposed : ∀ j, j ∈ (scanBlockBody hir localIds sourceRoots before
      block).2.liveness.upwardExposedReads ↔
      ObservesFirst hir.expressions (localIds j) block.terminator block.statements := by
    intro j
    rw [hlive, mem_blockLiveness hinj]
    simp [BlockLiveness.new]
  rw [mem_carryReads hclosed]
  simp only [hexposed]
  constructor
  · rintro (hown | ⟨carrier, hobserved, hroot⟩)
    · exact ⟨i, .inl rfl, hown⟩
    · exact ⟨carrier, .inr hroot, hobserved⟩
  · rintro ⟨user, rfl | hroot, hobserved⟩
    · exact .inl hobserved
    · exact .inr ⟨user, hobserved, hroot⟩

end Moth.Borrow
