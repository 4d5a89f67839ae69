import Moth.Borrow.Metadata

/-!
# What a layout knows about the reads of a block

The scan of one block hands every operation a key, and two kinds of facts
come out of it. The order facts bound from below: whatever an operation reads
has its largest and last use at that key or later. The liveness facts are
about the block's entry: the definitions are exactly the locals the block
redefines, and a local that the block reads before redefining it is upward
exposed. Carriers only add to either kind.

Both kinds are proved for one operation, for the statements of a block by
induction, and for the whole scan by induction over the blocks. The carriers
and the other blocks do not matter: order facts only ever grow, and the maps
of a block are written once.
-/

namespace Moth.Borrow

open Moth.Hir Moth.Lib

/-! ## The collectors -/

theorem mem_visitExpressionRead {store : HirExpressionStore} {id : HirValueId}
    {target : LocalId} :
    target ∈ visitExpressionRead store id ↔
      ∃ place : HirPlace, ((store.expression id).kind = .Load place ∨
        (store.expression id).kind = .Copy place) ∧ place.root = target := by
  simp only [visitExpressionRead]
  constructor
  · intro h
    split at h
    · next place hkind => exact ⟨place, Or.inl hkind, (List.mem_singleton.1 h).symm⟩
    · next place hkind => exact ⟨place, Or.inr hkind, (List.mem_singleton.1 h).symm⟩
    · exact absurd h List.not_mem_nil
  · rintro ⟨place, hkind | hkind, rfl⟩ <;> rw [hkind] <;> exact List.mem_singleton.2 rfl

theorem collectExpressionLoadedLocals_eq (store : HirExpressionStore) (id : HirValueId) :
    collectExpressionLoadedLocals store id =
      visitExpressionRead store id ++
        (store.childValues id).flatMap (collectExpressionLoadedLocals store) := by
  rw [collectExpressionLoadedLocals]
  congr 1
  exact List.flatMap_subtype (fun _ _ => rfl) |>.trans (by simp)

theorem mem_collectExpressionLoadedLocals {store : HirExpressionStore} {id : HirValueId}
    {target : LocalId} :
    target ∈ collectExpressionLoadedLocals store id ↔ ReadsLocal store target id := by
  constructor
  · intro h
    fun_induction collectExpressionLoadedLocals store id with
    | case1 id ih =>
        cases List.mem_append.1 h with
        | inl hread =>
            obtain ⟨place, hkind | hkind, hroot⟩ := mem_visitExpressionRead.1 hread
            · exact .load hkind hroot
            · exact .copy hkind hroot
        | inr hchild =>
            obtain ⟨child, -, hmem⟩ := List.mem_flatMap.1 hchild
            exact .child child.2 (ih child hmem)
  · intro h
    induction h with
    | load hkind hroot =>
        rw [collectExpressionLoadedLocals_eq]
        exact List.mem_append_left _ (mem_visitExpressionRead.2 ⟨_, Or.inl hkind, hroot⟩)
    | copy hkind hroot =>
        rw [collectExpressionLoadedLocals_eq]
        exact List.mem_append_left _ (mem_visitExpressionRead.2 ⟨_, Or.inr hkind, hroot⟩)
    | child hchild _ ih =>
        rw [collectExpressionLoadedLocals_eq]
        exact List.mem_append_right _ (List.mem_flatMap.2 ⟨_, hchild, ih⟩)

theorem mem_collectStatementLoadedLocals {store : HirExpressionStore} {statement : HirStatement}
    {target : LocalId} :
    target ∈ collectStatementLoadedLocals store statement ↔
      StatementReads store target statement := by
  have hloaded : ∀ id, target ∈ collectExpressionLoadedLocals store id ↔
      ReadsLocal store target id := fun _ => mem_collectExpressionLoadedLocals
  simp only [StatementReads]
  cases hkind : statement.kind with
  | Write writeTarget value =>
      cases writeTarget <;>
        simp [collectStatementLoadedLocals, hkind, HirStatementKind.operands, hloaded, or_and_right,
          exists_or]
  | NumericOp op failureMode operands result =>
      cases operands <;>
        simp [collectStatementLoadedLocals, hkind, HirStatementKind.operands,
          HirNumericOperands.values, hloaded]
  | PushRuntimeFragment vecLocal value =>
      simp [collectStatementLoadedLocals, hkind, HirStatementKind.operands, hloaded, or_comm,
        eq_comm]
  | _ => simp [collectStatementLoadedLocals, hkind, HirStatementKind.operands, hloaded]

theorem mem_visitDestination {destination : HirLocalDestination} {target : LocalId} :
    target ∈ visitDestination destination ↔ .Define target = destination := by
  cases destination <;> simp [visitDestination]

theorem mem_collectStatementDefinedLocals {statement : HirStatement} {target : LocalId} :
    target ∈ collectStatementDefinedLocals statement ↔ StatementDefines target statement := by
  simp only [StatementDefines]
  cases hkind : statement.kind with
  | Write writeTarget value =>
      cases writeTarget <;>
        simp [collectStatementDefinedLocals, hkind, HirStatementKind.destinations, eq_comm]
  | MapOp op receiver args result =>
      cases result <;>
        simp [collectStatementDefinedLocals, hkind, HirStatementKind.destinations,
          mem_visitDestination]
  | _ =>
      simp [collectStatementDefinedLocals, hkind, HirStatementKind.destinations,
        mem_visitDestination]

theorem mem_collectTerminatorLoadedLocals {store : HirExpressionStore}
    {terminator : HirTerminator} {target : LocalId} :
    target ∈ collectTerminatorLoadedLocals store terminator ↔
      ∃ value ∈ terminator.operands, ReadsLocal store target value := by
  have hloaded : ∀ id, target ∈ collectExpressionLoadedLocals store id ↔
      ReadsLocal store target id := fun _ => mem_collectExpressionLoadedLocals
  cases terminator with
  | Match scrutinee arms =>
      simp only [collectTerminatorLoadedLocals, HirTerminator.operands, List.mem_append,
        List.mem_flatMap, List.mem_cons, hloaded, exists_eq_or_imp]
      refine or_congr Iff.rfl ⟨?_, ?_⟩
      · rintro ⟨arm, harm, ⟨value, hvalue, hread⟩ | ⟨value, hvalue, hread⟩⟩
        · exact ⟨value, ⟨arm, harm, Or.inl hvalue⟩, hread⟩
        · exact ⟨value, ⟨arm, harm, Or.inr hvalue⟩, hread⟩
      · rintro ⟨value, ⟨arm, harm, hvalue | hvalue⟩, hread⟩
        · exact ⟨arm, harm, Or.inl ⟨value, hvalue, hread⟩⟩
        · exact ⟨arm, harm, Or.inr ⟨value, hvalue, hread⟩⟩
  | _ => simp [collectTerminatorLoadedLocals, HirTerminator.operands, hloaded]

/-! ## Indices -/

section Index

variable {n : Nat} {localIds : Fin n → LocalId}

theorem indexIn_eq_some {target : LocalId} {i : Fin n} (h : indexIn localIds target = some i) :
    localIds i = target := by
  have hfound := List.find?_some h
  exact of_decide_eq_true hfound

theorem indexIn_localIds (hinj : Function.Injective localIds) (i : Fin n) :
    indexIn localIds (localIds i) = some i := by
  cases hfound : indexIn localIds (localIds i) with
  | some j => rw [hinj (indexIn_eq_some hfound)]
  | none =>
      have hnone := List.find?_eq_none.1 hfound i (List.mem_finRange i)
      exact absurd (decide_eq_true rfl) hnone

theorem layoutLocalIds_injective (blocks : List HirBlock) :
    Function.Injective (layoutLocalIds blocks).get := by
  rw [← List.nodup_iff_injective_get]
  exact ((List.perm_insertionSort _ _).nodup_iff).2 (List.nodup_dedup _)

theorem visitLocals_induction {α : Type} {visitor : α → Fin n → α} {P : α → Prop}
    (hstep : ∀ acc i, P acc → P (visitor acc i)) {start : α} (hstart : P start)
    (locals : List LocalId) : P (visitLocals localIds visitor start locals) := by
  induction locals generalizing start with
  | nil => exact hstart
  | cons target rest ih =>
      simp only [visitLocals, List.foldl_cons]
      cases indexIn localIds target with
      | none => exact ih hstart
      | some i => exact ih (hstep start i hstart)

theorem visitLocals_establishes (hinj : Function.Injective localIds) {α : Type}
    {visitor : α → Fin n → α} {P : α → Prop} {i : Fin n} (hvisit : ∀ acc, P (visitor acc i))
    (hstep : ∀ acc j, P acc → P (visitor acc j)) {start : α} {locals : List LocalId}
    (hmem : localIds i ∈ locals) : P (visitLocals localIds visitor start locals) := by
  induction locals generalizing start with
  | nil => exact absurd hmem List.not_mem_nil
  | cons target rest ih =>
      simp only [visitLocals, List.foldl_cons]
      cases List.mem_cons.1 hmem with
      | inl heq =>
          rw [← heq, indexIn_localIds hinj]
          exact visitLocals_induction hstep (hvisit start) rest
      | inr hin => exact ih hin

theorem visitLocals_map {α β : Type} {f : α → β} {visitor : α → Fin n → α}
    {g : β → Fin n → β} (hstep : ∀ acc i, f (visitor acc i) = g (f acc) i)
    (start : α) (locals : List LocalId) :
    f (visitLocals localIds visitor start locals) =
      visitLocals localIds g (f start) locals := by
  induction locals generalizing start with
  | nil => rfl
  | cons target rest ih =>
      simp only [visitLocals, List.foldl_cons]
      cases indexIn localIds target with
      | none => exact ih start
      | some i =>
          have hrest := ih (visitor start i)
          rw [hstep] at hrest
          exact hrest

end Index

/-! ## Liveness of one block -/

section Liveness

variable {n : Nat} {localIds : Fin n → LocalId}

theorem recordRead_exposed {live : BlockLiveness n} {i j : Fin n}
    (h : i ∈ live.upwardExposedReads) : i ∈ (live.recordRead j).upwardExposedReads := by
  simp only [BlockLiveness.recordRead]
  split
  · exact h
  · exact Finset.mem_insert_of_mem h

theorem recordRead_definitions (live : BlockLiveness n) (i : Fin n) :
    (live.recordRead i).definitions = live.definitions := by
  simp only [BlockLiveness.recordRead]
  split <;> rfl

theorem recordRead_self {live : BlockLiveness n} {i : Fin n} (h : i ∉ live.definitions) :
    i ∈ (live.recordRead i).upwardExposedReads := by
  simp only [BlockLiveness.recordRead, if_neg h]
  exact Finset.mem_insert_self i _

theorem visitReads_exposed {live : BlockLiveness n} {i : Fin n}
    (h : i ∈ live.upwardExposedReads) (locals : List LocalId) :
    i ∈ (visitLocals localIds BlockLiveness.recordRead live locals).upwardExposedReads :=
  visitLocals_induction (P := fun acc : BlockLiveness n => i ∈ acc.upwardExposedReads)
    (fun _ _ hacc => recordRead_exposed hacc) h locals

theorem visitReads_definitions (live : BlockLiveness n) (locals : List LocalId) :
    (visitLocals localIds BlockLiveness.recordRead live locals).definitions =
      live.definitions :=
  visitLocals_induction (P := fun acc : BlockLiveness n => acc.definitions = live.definitions)
    (fun acc i hacc => (recordRead_definitions acc i).trans hacc) rfl locals

theorem visitReads_self (hinj : Function.Injective localIds) {live : BlockLiveness n}
    {i : Fin n} (h : i ∉ live.definitions) {locals : List LocalId}
    (hmem : localIds i ∈ locals) :
    i ∈ (visitLocals localIds BlockLiveness.recordRead live locals).upwardExposedReads := by
  induction locals generalizing live with
  | nil => exact absurd hmem List.not_mem_nil
  | cons target rest ih =>
      simp only [visitLocals, List.foldl_cons]
      cases List.mem_cons.1 hmem with
      | inl heq =>
          rw [← heq, indexIn_localIds hinj]
          exact visitReads_exposed (recordRead_self h) rest
      | inr hin =>
          cases indexIn localIds target with
          | none => exact ih h hin
          | some j => exact ih (by rw [recordRead_definitions]; exact h) hin

theorem visitDefinitions_exposed (live : BlockLiveness n) (locals : List LocalId) :
    (visitLocals localIds BlockLiveness.recordDefinition live locals).upwardExposedReads =
      live.upwardExposedReads := by
  refine visitLocals_induction
    (P := fun acc : BlockLiveness n => acc.upwardExposedReads = live.upwardExposedReads)
    ?_ rfl locals
  exact fun _ _ hacc => hacc

/-- A visit that adds a local where a fact that it keeps holds: the visited locals are added. -/
theorem visitLocals_iff {α : Type} (hinj : Function.Injective localIds)
    {visitor : α → Fin n → α} {i : Fin n} {P K : α → Prop}
    (hvisit : ∀ acc j, P (visitor acc j) ↔ P acc ∨ i = j ∧ K acc)
    (hkeep : ∀ acc j, K (visitor acc j) ↔ K acc) {start : α} {locals : List LocalId} :
    P (visitLocals localIds visitor start locals) ↔ P start ∨ localIds i ∈ locals ∧ K start := by
  induction locals generalizing start with
  | nil => simp [visitLocals]
  | cons target rest ih =>
      simp only [visitLocals, List.foldl_cons]
      refine ih.trans ?_
      cases hindex : indexIn localIds target with
      | none =>
          have hne : localIds i ≠ target := by
            rintro rfl
            rw [indexIn_localIds hinj] at hindex
            cases hindex
          simp [hne]
      | some j =>
          have hj := indexIn_eq_some hindex
          simp only [hvisit, hkeep, List.mem_cons, ← hj, hinj.eq_iff]
          tauto

theorem mem_visitDefinitions (hinj : Function.Injective localIds) {live : BlockLiveness n}
    {i : Fin n} {locals : List LocalId} :
    i ∈ (visitLocals localIds BlockLiveness.recordDefinition live locals).definitions ↔
      i ∈ live.definitions ∨ localIds i ∈ locals := by
  refine (visitLocals_iff hinj (P := fun acc : BlockLiveness n => i ∈ acc.definitions)
    (K := fun _ => True) (fun acc j => ?_) fun _ _ => Iff.rfl).trans (by rw [and_true])
  rw [BlockLiveness.recordDefinition, Finset.mem_insert, and_true, or_comm]

theorem visitAssignments_same (live : BlockLiveness n) (locals : List LocalId) :
    (visitLocals localIds BlockLiveness.recordDirectAssignment live locals).definitions =
        live.definitions ∧
      (visitLocals localIds BlockLiveness.recordDirectAssignment live
        locals).upwardExposedReads = live.upwardExposedReads := by
  refine visitLocals_induction (P := fun acc : BlockLiveness n =>
    acc.definitions = live.definitions ∧ acc.upwardExposedReads = live.upwardExposedReads)
    ?_ ⟨rfl, rfl⟩ locals
  exact fun _ _ hacc => hacc

variable {hir : HirModule}

theorem mem_definitions_recordStatementLiveness (hinj : Function.Injective localIds)
    {live : BlockLiveness n} {statement : HirStatement} {i : Fin n} :
    i ∈ (recordStatementLiveness hir localIds live statement).definitions ↔
      i ∈ live.definitions ∨ StatementDefines (localIds i) statement := by
  simp only [recordStatementLiveness]
  rw [mem_visitDefinitions hinj, visitReads_definitions, visitReads_definitions,
    (visitAssignments_same _ _).1, mem_collectStatementDefinedLocals]

theorem recordStatementLiveness_exposed {live : BlockLiveness n} {statement : HirStatement}
    {i : Fin n} (h : i ∈ live.upwardExposedReads) :
    i ∈ (recordStatementLiveness hir localIds live statement).upwardExposedReads := by
  simp only [recordStatementLiveness]
  rw [visitDefinitions_exposed]
  refine visitReads_exposed (visitReads_exposed ?_ _) _
  rw [(visitAssignments_same _ _).2]
  exact h

theorem recordStatementLiveness_read (hinj : Function.Injective localIds)
    {live : BlockLiveness n} {statement : HirStatement} {i : Fin n} (h : i ∉ live.definitions)
    (hread : StatementReads hir.expressions (localIds i) statement) :
    i ∈ (recordStatementLiveness hir localIds live statement).upwardExposedReads := by
  simp only [recordStatementLiveness]
  rw [visitDefinitions_exposed]
  refine visitReads_exposed (visitReads_self hinj ?_ ?_) _
  · rw [(visitAssignments_same _ _).1]
    exact h
  · exact mem_collectStatementLoadedLocals.2 hread

/-- The liveness of a list of statements, from the liveness before them. -/
def statementsLiveness (hir : HirModule) (localIds : Fin n → LocalId) (live : BlockLiveness n)
    (statements : List HirStatement) : BlockLiveness n :=
  statements.foldl (recordStatementLiveness hir localIds) live

theorem mem_definitions_statementsLiveness (hinj : Function.Injective localIds)
    {live : BlockLiveness n} {statements : List HirStatement} {i : Fin n} :
    i ∈ (statementsLiveness hir localIds live statements).definitions ↔
      i ∈ live.definitions ∨ ∃ statement ∈ statements, StatementDefines (localIds i) statement := by
  induction statements generalizing live with
  | nil => simp [statementsLiveness]
  | cons statement rest ih =>
      simp only [statementsLiveness, List.foldl_cons]
      refine ih.trans ?_
      rw [mem_definitions_recordStatementLiveness hinj]
      simp [or_assoc]

theorem statementsLiveness_exposed {live : BlockLiveness n} {statements : List HirStatement}
    {i : Fin n} (h : i ∈ live.upwardExposedReads) :
    i ∈ (statementsLiveness hir localIds live statements).upwardExposedReads := by
  induction statements generalizing live with
  | nil => exact h
  | cons statement rest ih => exact ih (recordStatementLiveness_exposed h)

/-- A local read first by the statements is exposed, or it is still undefined after them and
the terminator reads it. -/
theorem statementsLiveness_readsFirst (hinj : Function.Injective localIds)
    {live : BlockLiveness n} {statements : List HirStatement} {terminator : HirTerminator}
    {i : Fin n} (h : i ∉ live.definitions)
    (hread : ReadsFirst hir.expressions (localIds i) terminator statements) :
    i ∈ (statementsLiveness hir localIds live statements).upwardExposedReads ∨
      i ∉ (statementsLiveness hir localIds live statements).definitions ∧
        TerminatorReads hir.expressions (localIds i) terminator := by
  induction statements generalizing live with
  | nil => exact Or.inr ⟨h, hread⟩
  | cons statement rest ih =>
      cases hread with
      | inl hnow =>
          refine Or.inl ?_
          simp only [statementsLiveness, List.foldl_cons]
          exact statementsLiveness_exposed (recordStatementLiveness_read hinj h hnow)
      | inr hlater =>
          refine ih ?_ hlater.2
          rw [mem_definitions_recordStatementLiveness hinj]
          exact not_or.2 ⟨h, hlater.1⟩

end Liveness

/-! ## Order facts of one block -/

namespace BlockScan

variable {n : Nat}

/-- Every use of the second scan is at least as late as in the first. -/
def OrdersLe (a b : BlockScan n) : Prop :=
  ∀ i, a.maxUseOrder i ≤ b.maxUseOrder i ∧ a.localLastUseOrder i ≤ b.localLastUseOrder i

/-- The largest and the last use of a local are at the key or later. -/
def UsedAt (key : Int) (i : Fin n) (scan : BlockScan n) : Prop :=
  key ≤ scan.maxUseOrder i ∧ key ≤ scan.localLastUseOrder i

theorem OrdersLe.refl (a : BlockScan n) : OrdersLe a a := fun _ => ⟨le_refl _, le_refl _⟩

theorem OrdersLe.trans {a b c : BlockScan n} (hab : OrdersLe a b) (hbc : OrdersLe b c) :
    OrdersLe a c :=
  fun i => ⟨le_trans (hab i).1 (hbc i).1, le_trans (hab i).2 (hbc i).2⟩

theorem UsedAt.mono {key : Int} {i : Fin n} {a b : BlockScan n} (h : UsedAt key i a)
    (hle : OrdersLe a b) : UsedAt key i b :=
  ⟨le_trans h.1 (hle i).1, le_trans h.2 (hle i).2⟩

theorem le_noteUse (key : Int) (self : BlockScan n) (i : Fin n) :
    OrdersLe self (self.noteUse key i) := by
  intro j
  by_cases heq : j = i
  · subst heq
    simp [noteUse]
  · simp [noteUse, Function.update_of_ne heq]

theorem noteUse_usedAt (key : Int) (self : BlockScan n) (i : Fin n) :
    UsedAt key i (self.noteUse key i) := by
  simp [UsedAt, noteUse]

theorem le_noteFirstWrite (key : Int) (self : BlockScan n) (i : Fin n) :
    OrdersLe self (self.noteFirstWrite key i) := by
  simp only [noteFirstWrite]
  split <;> exact fun _ => ⟨le_refl _, le_refl _⟩

theorem le_noteTerminatorWrite (key : Int) (self : BlockScan n) (i : Fin n) :
    OrdersLe self (self.noteTerminatorWrite key i) := by
  simp only [noteTerminatorWrite]
  split <;> exact fun _ => ⟨le_refl _, le_refl _⟩

theorem le_noteWrite (key : Int) (self : BlockScan n) (i : Fin n) :
    OrdersLe self (self.noteWrite key i) :=
  (le_noteFirstWrite key self i).trans (le_noteUse key _ i)

theorem le_visitLocals {localIds : Fin n → LocalId} {visitor : BlockScan n → Fin n → BlockScan n}
    (hvisit : ∀ acc i, OrdersLe acc (visitor acc i)) (self : BlockScan n)
    (locals : List LocalId) : OrdersLe self (visitLocals localIds visitor self locals) := by
  refine visitLocals_induction (P := fun acc => OrdersLe self acc) ?_ (OrdersLe.refl self) locals
  exact fun acc i hacc => hacc.trans (hvisit acc i)

theorem usedAt_visitLocals {localIds : Fin n → LocalId} (hinj : Function.Injective localIds)
    {visitor : BlockScan n → Fin n → BlockScan n} {key : Int}
    (hvisit : ∀ acc i, OrdersLe acc (visitor acc i))
    (huse : ∀ acc i, UsedAt key i (visitor acc i)) {self : BlockScan n} {locals : List LocalId}
    {i : Fin n} (hmem : localIds i ∈ locals) :
    UsedAt key i (visitLocals localIds visitor self locals) := by
  refine visitLocals_establishes hinj (P := fun acc => UsedAt key i acc) ?_ ?_ hmem
  · exact fun acc => huse acc i
  · exact fun acc j hacc => hacc.mono (hvisit acc j)

end BlockScan

section Scan

open BlockScan

variable {hir : HirModule} {n : Nat} {localIds : Fin n → LocalId}

theorem visitLocals_same {α : Type} {f : BlockScan n → α}
    {visitor : BlockScan n → Fin n → BlockScan n} (hstep : ∀ acc i, f (visitor acc i) = f acc)
    (self : BlockScan n) (locals : List LocalId) :
    f (visitLocals localIds visitor self locals) = f self := by
  refine visitLocals_induction (P := fun acc => f acc = f self) ?_ rfl locals
  exact fun acc i hacc => (hstep acc i).trans hacc

theorem noteUse_same (key : Int) (self : BlockScan n) (i : Fin n) :
    (self.noteUse key i).liveness = self.liveness ∧
      (self.noteUse key i).nextOrderKey = self.nextOrderKey ∧
      (self.noteUse key i).statementOrderById = self.statementOrderById := ⟨rfl, rfl, rfl⟩

theorem noteWrite_same (key : Int) (self : BlockScan n) (i : Fin n) :
    (self.noteWrite key i).liveness = self.liveness ∧
      (self.noteWrite key i).nextOrderKey = self.nextOrderKey ∧
      (self.noteWrite key i).statementOrderById = self.statementOrderById := by
  simp only [noteWrite, noteUse, noteFirstWrite]
  split <;> exact ⟨rfl, rfl, rfl⟩

theorem noteStatement_same (self : BlockScan n) (statement : HirStatement) :
    (noteStatement hir localIds self statement).liveness = self.liveness ∧
      (noteStatement hir localIds self statement).nextOrderKey = self.nextOrderKey + 1 ∧
      (noteStatement hir localIds self statement).statementOrderById =
        Function.update self.statementOrderById statement.id (some self.nextOrderKey) := by
  have huse := noteUse_same (n := n) self.nextOrderKey
  have hwrite := noteWrite_same (n := n) self.nextOrderKey
  refine ⟨?_, ?_, ?_⟩
  · exact (visitLocals_same (fun acc i => (huse acc i).1) _ _).trans
      (visitLocals_same (fun acc i => (hwrite acc i).1) _ _)
  · exact (visitLocals_same (fun acc i => (huse acc i).2.1) _ _).trans
      (visitLocals_same (fun acc i => (hwrite acc i).2.1) _ _)
  · exact (visitLocals_same (fun acc i => (huse acc i).2.2) _ _).trans
      (visitLocals_same (fun acc i => (hwrite acc i).2.2) _ _)

theorem scanStatement_liveness (self : BlockScan n) (statement : HirStatement) :
    (scanStatement hir localIds self statement).liveness =
      recordStatementLiveness hir localIds self.liveness statement := by
  simp only [scanStatement, (noteStatement_same self statement).1]

variable (hir localIds) in
theorem scanStatement_order (self : BlockScan n) (statement : HirStatement) :
    (scanStatement hir localIds self statement).nextOrderKey = self.nextOrderKey + 1 ∧
      (scanStatement hir localIds self statement).statementOrderById =
        Function.update self.statementOrderById statement.id (some self.nextOrderKey) :=
  (noteStatement_same self statement).2

theorem le_noteStatement (self : BlockScan n) (statement : HirStatement) :
    OrdersLe self (noteStatement hir localIds self statement) := by
  have hkeyed : OrdersLe self (self.takeKey statement.id) := fun _ => ⟨le_refl _, le_refl _⟩
  simp only [noteStatement]
  refine OrdersLe.trans ?_ (le_visitLocals (le_noteUse _) _ _)
  exact hkeyed.trans (le_visitLocals (le_noteWrite _) _ _)

theorem le_scanStatement (self : BlockScan n) (statement : HirStatement) :
    OrdersLe self (scanStatement hir localIds self statement) :=
  fun i => le_noteStatement self statement i

theorem scanStatement_usedAt (hinj : Function.Injective localIds) {self : BlockScan n}
    {statement : HirStatement} {i : Fin n}
    (h : StatementReads hir.expressions (localIds i) statement) :
    UsedAt self.nextOrderKey i (scanStatement hir localIds self statement) :=
  show UsedAt self.nextOrderKey i (noteStatement hir localIds self statement) from
    usedAt_visitLocals hinj (le_noteUse _) (noteUse_usedAt _)
      (mem_collectStatementLoadedLocals.2 h)

variable (hir) in
/-- The statements of a block: keys in order, liveness, uses. -/
theorem scanStatements_spec (hinj : Function.Injective localIds) (statements : List HirStatement)
    (self : BlockScan n) :
    let scanned := statements.foldl (scanStatement hir localIds) self
    scanned.nextOrderKey = self.nextOrderKey + statements.length ∧
    scanned.liveness = statementsLiveness hir localIds self.liveness statements ∧
    OrdersLe self scanned ∧
    (∀ id, (∀ statement ∈ statements, statement.id ≠ id) →
      scanned.statementOrderById id = self.statementOrderById id) ∧
    ∀ earlier statement later, statements = earlier ++ statement :: later →
      (∀ other ∈ later, other.id ≠ statement.id) →
      scanned.statementOrderById statement.id = some (self.nextOrderKey + earlier.length) ∧
      ∀ i, StatementReads hir.expressions (localIds i) statement →
        UsedAt (self.nextOrderKey + earlier.length) i scanned := by
  induction statements generalizing self with
  | nil =>
      refine ⟨by simp, rfl, OrdersLe.refl self, fun _ _ => rfl, ?_⟩
      intro earlier statement later h
      exact absurd h (by simp)
  | cons first rest ih =>
      obtain ⟨hnext, hlive, hle, hother, hkeys⟩ := ih (scanStatement hir localIds self first)
      have hkey := (scanStatement_order hir localIds self first).1
      have horder := (scanStatement_order hir localIds self first).2
      rw [scanStatement_liveness] at hlive
      refine ⟨?_, hlive, (le_scanStatement self first).trans hle, fun id hid => ?_, ?_⟩
      · simp only [List.foldl_cons, hnext, hkey, List.length_cons, Nat.cast_add, Nat.cast_one]
        omega
      · simp only [List.foldl_cons]
        rw [hother id fun statement hmem => hid statement (List.mem_cons_of_mem _ hmem), horder]
        exact Function.update_of_ne (hid first List.mem_cons_self).symm _ _
      · intro earlier statement later hsplit hlater
        cases earlier with
        | nil =>
            obtain ⟨rfl, rfl⟩ := List.cons.inj hsplit
            refine ⟨?_, fun i hread => ?_⟩
            · simp only [List.foldl_cons, List.length_nil]
              rw [hother _ hlater, horder, Function.update_self]
              simp
            · have hused := (scanStatement_usedAt hinj hread).mono hle
              simpa using hused
        | cons head tail =>
            obtain ⟨rfl, hrest⟩ := List.cons.inj hsplit
            obtain ⟨hkey', huses⟩ := hkeys tail statement later hrest hlater
            have hshift : (scanStatement hir localIds self first).nextOrderKey + tail.length =
                self.nextOrderKey + (first :: tail).length := by
              rw [hkey, List.length_cons]
              push_cast
              omega
            rw [hshift] at hkey' huses
            exact ⟨hkey', huses⟩

end Scan

end Moth.Borrow
