import Moth.Hir.Definitions

/-!
# Definitions are checked on every path

The check accepts a module exactly when every read of every function is a read
of a local that the path to it has defined, whatever the path.

On a path a local is defined by a parameter, by a definition, by a jump
argument, or by the result of an `Invoke` on the edge that was taken. An update
is a read and defines nothing. The solver does enter it among the definitions,
which makes a difference only where the update itself is already a read of an
undefined local.
-/

namespace Moth.Hir

open Moth.Lib

/-! ## What an operation reads -/

theorem readsLocal_iff {store : HirExpressionStore} {l : LocalId} {value : HirValueId} :
    ReadsLocal store l value ↔ (store.expression value).kind.readRoot = some l ∨
      ∃ child ∈ store.childValues value, ReadsLocal store l child := by
  constructor
  · intro h
    cases h with
    | load hkind hroot => exact .inl (by rw [hkind, ← hroot]; rfl)
    | copy hkind hroot => exact .inl (by rw [hkind, ← hroot]; rfl)
    | child hmem hchild => exact .inr ⟨_, hmem, hchild⟩
  · intro h
    rcases h with hroot | ⟨child, hmem, hchild⟩
    · cases hkind : (store.expression value).kind with
      | Load place =>
          rw [hkind] at hroot
          exact .load hkind (Option.some.inj hroot)
      | Copy place =>
          rw [hkind] at hroot
          exact .copy hkind (Option.some.inj hroot)
      | _ =>
          rw [hkind] at hroot
          cases hroot
    · exact .child hmem hchild

theorem requireDefinedLocal_ok {l : LocalId} {defined : Definitions} :
    requireDefinedLocal l defined = .ok () ↔ l ∈ defined := by
  rw [requireDefinedLocal]
  split
  · next h => exact ⟨fun _ => h, fun _ => rfl⟩
  · next h => exact ⟨fun hok => (nomatch hok), fun hin => absurd hin h⟩

section Traversal

variable {store : HirExpressionStore} {defined : Definitions}

/-- Everything below the rows is defined. -/
def AllDefined (store : HirExpressionStore) (defined : Definitions) (value : HirValueId) : Prop :=
  ∀ l, ReadsLocal store l value → l ∈ defined

theorem AllDefined.stacked {value child : HirValueId} (h : AllDefined store defined value)
    (hchild : child ∈ store.stackedChildren value) : AllDefined store defined child :=
  fun l hl => h l (.child (HirExpressionStore.mem_stackedChildren.1 hchild) hl)

theorem validatePendingReads_of_defined {pending seen : List HirValueId}
    (h : ∀ value ∈ pending, AllDefined store defined value) :
    validatePendingReads store defined pending seen = .ok () := by
  fun_induction validatePendingReads store defined pending seen with
  | case1 => rfl
  | case2 seen value rest hseen ih => exact ih fun v hv => h v (List.mem_cons_of_mem _ hv)
  | case3 seen value rest hseen root hroot failure hfailure =>
      have hin := h value List.mem_cons_self root (readsLocal_iff.2 (.inl hroot))
      rw [requireDefinedLocal_ok.2 hin] at hfailure
      cases hfailure
  | case4 seen value rest hseen root hroot hok ih =>
      refine ih fun v hv => ?_
      rcases List.mem_append.1 hv with hchild | hrest
      · exact (h value List.mem_cons_self).stacked hchild
      · exact h v (List.mem_cons_of_mem _ hrest)
  | case5 seen value rest hseen hroot ih =>
      refine ih fun v hv => ?_
      rcases List.mem_append.1 hv with hchild | hrest
      · exact (h value List.mem_cons_self).stacked hchild
      · exact h v (List.mem_cons_of_mem _ hrest)

/-- The rows seen so far: their own reads are defined, and their children are
seen or still to come. -/
def SeenClosed (store : HirExpressionStore) (defined : Definitions)
    (pending seen : List HirValueId) : Prop :=
  ∀ value ∈ seen, (∀ root, (store.expression value).kind.readRoot = some root → root ∈ defined) ∧
    ∀ child ∈ store.childValues value, child ∈ seen ∨ child ∈ pending

theorem SeenClosed.skip {value : HirValueId} {rest seen : List HirValueId}
    (h : SeenClosed store defined (value :: rest) seen) (hvalue : value ∈ seen) :
    SeenClosed store defined rest seen := by
  intro v hv
  refine ⟨(h v hv).1, fun child hchild => ?_⟩
  rcases (h v hv).2 child hchild with hseen | hpending
  · exact .inl hseen
  · rcases List.mem_cons.1 hpending with heq | hrest
    · exact .inl (heq ▸ hvalue)
    · exact .inr hrest

theorem SeenClosed.visit {value : HirValueId} {rest seen : List HirValueId}
    (h : SeenClosed store defined (value :: rest) seen)
    (hroot : ∀ root, (store.expression value).kind.readRoot = some root → root ∈ defined) :
    SeenClosed store defined (store.stackedChildren value ++ rest) (value :: seen) := by
  intro v hv
  rcases List.mem_cons.1 hv with rfl | hseen
  · refine ⟨hroot, fun child hchild => ?_⟩
    exact .inr (List.mem_append_left _ (HirExpressionStore.mem_stackedChildren.2 hchild))
  · refine ⟨(h v hseen).1, fun child hchild => ?_⟩
    rcases (h v hseen).2 child hchild with hin | hpending
    · exact .inl (List.mem_cons_of_mem _ hin)
    · rcases List.mem_cons.1 hpending with heq | hrest
      · exact .inl (heq ▸ List.mem_cons_self)
      · exact .inr (List.mem_append_right _ hrest)

theorem SeenClosed.allDefined {seen : List HirValueId} (h : SeenClosed store defined [] seen)
    {value : HirValueId} (hvalue : value ∈ seen) : AllDefined store defined value := by
  intro l hl
  induction hl with
  | load hkind hroot => exact (h _ hvalue).1 l (by rw [hkind, ← hroot]; rfl)
  | copy hkind hroot => exact (h _ hvalue).1 l (by rw [hkind, ← hroot]; rfl)
  | child hmem _ ih => exact ih (((h _ hvalue).2 _ hmem).resolve_right List.not_mem_nil)

theorem defined_of_validatePendingReads {pending seen : List HirValueId}
    (hclosed : SeenClosed store defined pending seen)
    (h : validatePendingReads store defined pending seen = .ok ()) :
    ∀ value, value ∈ seen ∨ value ∈ pending → AllDefined store defined value := by
  fun_induction validatePendingReads store defined pending seen with
  | case1 seen =>
      intro value hvalue
      exact hclosed.allDefined (hvalue.resolve_right List.not_mem_nil)
  | case2 seen value rest hseen ih =>
      intro v hv
      refine ih (hclosed.skip hseen) h v ?_
      rcases hv with hin | hpending
      · exact .inl hin
      · rcases List.mem_cons.1 hpending with rfl | hrest
        · exact .inl hseen
        · exact .inr hrest
  | case3 seen value rest hseen root hroot failure hfailure => cases h
  | case4 seen value rest hseen root hroot hok ih =>
      intro v hv
      refine ih (hclosed.visit ?_) h v ?_
      · intro root' hroot'
        rw [hroot] at hroot'
        cases hroot'
        exact requireDefinedLocal_ok.1 hok
      · rcases hv with hin | hpending
        · exact .inl (List.mem_cons_of_mem _ hin)
        · rcases List.mem_cons.1 hpending with rfl | hrest
          · exact .inl List.mem_cons_self
          · exact .inr (List.mem_append_right _ hrest)
  | case5 seen value rest hseen hroot ih =>
      intro v hv
      refine ih (hclosed.visit ?_) h v ?_
      · intro root' hroot'
        rw [hroot] at hroot'
        cases hroot'
      · rcases hv with hin | hpending
        · exact .inl (List.mem_cons_of_mem _ hin)
        · rcases List.mem_cons.1 hpending with rfl | hrest
          · exact .inl List.mem_cons_self
          · exact .inr (List.mem_append_right _ hrest)

theorem validateExpressionReads_ok {value : HirValueId} :
    validateExpressionReads store value defined = .ok () ↔ AllDefined store defined value := by
  constructor
  · intro h
    refine defined_of_validatePendingReads ?_ h value (.inr List.mem_cons_self)
    exact fun _ hv => absurd hv List.not_mem_nil
  · intro h
    refine validatePendingReads_of_defined fun v hv => ?_
    rw [List.mem_singleton.1 hv]
    exact h

end Traversal

/-! ## What a block reads -/

def HirLocalDestination.updated : HirLocalDestination → Option LocalId
  | .Update l => some l
  | .Define _ => none

def HirLocalDestination.defined : HirLocalDestination → Option LocalId
  | .Define l => some l
  | .Update _ => none

@[simp] theorem updated_eq_some {destination : HirLocalDestination} {l : LocalId} :
    destination.updated = some l ↔ destination = .Update l := by
  cases destination <;> simp [HirLocalDestination.updated]

@[simp] theorem defined_eq_some {destination : HirLocalDestination} {l : LocalId} :
    destination.defined = some l ↔ destination = .Define l := by
  cases destination <;> simp [HirLocalDestination.defined]

/-- The locals a statement reads itself, apart from its operands: the place it
assigns to, the accumulator it pushes to and the locals it updates. -/
def HirStatementKind.readLocals : HirStatementKind → List LocalId
  | .Write (.AssignPlace place) _ => [place.root]
  | .PushRuntimeFragment vecLocal _ => [vecLocal]
  | kind => kind.destinations.filterMap HirLocalDestination.updated

def HirTerminator.readLocals : HirTerminator → List LocalId
  | .Jump _ args => args.map (·.source)
  | .RuntimeFailure (some cause) => [cause.error]
  | _ => []

def StatementUses (store : HirExpressionStore) (l : LocalId) (kind : HirStatementKind) : Prop :=
  (∃ value ∈ kind.operands, ReadsLocal store l value) ∨ l ∈ kind.readLocals

def TerminatorUses (store : HirExpressionStore) (l : LocalId) (terminator : HirTerminator) :
    Prop :=
  (∃ value ∈ terminator.operands, ReadsLocal store l value) ∨ l ∈ terminator.readLocals

/-- What a step of the check reads. -/
def ReadStep.Reads (store : HirExpressionStore) (l : LocalId) : ReadStep → Prop
  | .expression value => ReadsLocal store l value
  | .localRead read => l = read

def StepsRead (store : HirExpressionStore) (l : LocalId) (steps : List ReadStep) : Prop :=
  ∃ step ∈ steps, step.Reads store l

section Steps

variable {store : HirExpressionStore} {l : LocalId} {defined : Definitions}

@[simp] theorem stepsRead_nil : ¬ StepsRead store l [] := by simp [StepsRead]

@[simp] theorem stepsRead_cons {step : ReadStep} {rest : List ReadStep} :
    StepsRead store l (step :: rest) ↔ step.Reads store l ∨ StepsRead store l rest := by
  simp [StepsRead]

@[simp] theorem stepsRead_append {first later : List ReadStep} :
    StepsRead store l (first ++ later) ↔ StepsRead store l first ∨ StepsRead store l later := by
  simp only [StepsRead, List.mem_append, or_and_right, exists_or]

@[simp] theorem stepsRead_expressions {values : List HirValueId} :
    StepsRead store l (values.map .expression) ↔ ∃ value ∈ values, ReadsLocal store l value := by
  simp [StepsRead, ReadStep.Reads]

@[simp] theorem stepsRead_destination {destination : HirLocalDestination} :
    StepsRead store l destination.readSteps ↔ destination = .Update l := by
  cases destination <;> simp [HirLocalDestination.readSteps, ReadStep.Reads, eq_comm]

@[simp] theorem stepsRead_destinations {destinations : List HirLocalDestination} :
    StepsRead store l (destinations.flatMap HirLocalDestination.readSteps) ↔
      HirLocalDestination.Update l ∈ destinations := by
  induction destinations with
  | nil => simp
  | cons destination rest ih =>
      rw [List.flatMap_cons, stepsRead_append, stepsRead_destination, ih, List.mem_cons, eq_comm]

/-- The check looks at exactly the reads of a statement. -/
theorem stepsRead_statement {kind : HirStatementKind} :
    StepsRead store l kind.readSteps ↔ StatementUses store l kind := by
  cases kind with
  | Write target value =>
      cases target with
      | DefineLocal target =>
          simp [HirStatementKind.readSteps, StatementUses, HirStatementKind.operands,
            HirStatementKind.readLocals, HirStatementKind.destinations, ReadStep.Reads]
      | AssignPlace place =>
          simp only [HirStatementKind.readSteps, HirPlace.readSteps, StatementUses,
            HirStatementKind.operands, HirStatementKind.readLocals, stepsRead_cons,
            stepsRead_expressions, ReadStep.Reads, List.mem_append, List.mem_singleton,
            or_and_right, exists_or, exists_eq_left]
          grind
  | PushRuntimeFragment vecLocal value =>
      simp [HirStatementKind.readSteps, StatementUses, HirStatementKind.operands,
        HirStatementKind.readLocals, ReadStep.Reads]
  | Expr value =>
      simp [HirStatementKind.readSteps, StatementUses, HirStatementKind.operands,
        HirStatementKind.readLocals, HirStatementKind.destinations, ReadStep.Reads]
  | RangeCandidate current step last inclusive domain candidateResult inRangeResult =>
      simp [HirStatementKind.readSteps, StatementUses, HirStatementKind.operands,
        HirStatementKind.readLocals, HirStatementKind.destinations, ReadStep.Reads, or_assoc,
        eq_comm (a := HirLocalDestination.Update l)]
  | _ =>
      simp [HirStatementKind.readSteps, StatementUses, HirStatementKind.operands,
        HirStatementKind.readLocals, HirStatementKind.destinations, ReadStep.Reads,
        or_assoc]

theorem stepsRead_arms {arms : List HirMatchArm} :
    StepsRead store l (arms.flatMap HirMatchArm.readSteps) ↔
      ∃ value ∈ arms.flatMap fun arm => arm.pattern.value.toList ++ arm.guard.toList,
        ReadsLocal store l value := by
  induction arms with
  | nil => simp
  | cons arm rest ih =>
      rw [List.flatMap_cons, List.flatMap_cons, stepsRead_append, ih, HirMatchArm.readSteps,
        stepsRead_expressions]
      simp only [List.mem_append, or_and_right, exists_or]

theorem stepsRead_terminator {terminator : HirTerminator} :
    StepsRead store l terminator.readSteps ↔ TerminatorUses store l terminator := by
  cases terminator with
  | Match scrutinee arms =>
      simp only [HirTerminator.readSteps, TerminatorUses, HirTerminator.operands,
        HirTerminator.readLocals, stepsRead_cons, stepsRead_arms, ReadStep.Reads, List.mem_cons,
        or_and_right, exists_or, exists_eq_left, List.not_mem_nil, or_false]
  | RuntimeFailure cause =>
      cases cause <;> simp [HirTerminator.readSteps, TerminatorUses, HirTerminator.operands,
        HirTerminator.readLocals, ReadStep.Reads]
  | Jump target args =>
      simp [HirTerminator.readSteps, TerminatorUses, HirTerminator.operands,
        HirTerminator.readLocals, StepsRead, ReadStep.Reads, eq_comm]
  | _ =>
      simp [HirTerminator.readSteps, TerminatorUses, HirTerminator.operands,
        HirTerminator.readLocals, ReadStep.Reads]

theorem validateReadSteps_ok {steps : List ReadStep} :
    validateReadSteps store defined steps = .ok () ↔
      ∀ l, StepsRead store l steps → l ∈ defined := by
  induction steps with
  | nil => simp [validateReadSteps]
  | cons step rest ih =>
      have hstep : validateReadStep store defined step = .ok () ↔
          ∀ l, step.Reads store l → l ∈ defined := by
        cases step with
        | expression value => exact validateExpressionReads_ok
        | localRead read =>
            rw [validateReadStep, requireDefinedLocal_ok]
            exact ⟨fun h l hl => hl ▸ h, fun h => h read rfl⟩
      rw [validateReadSteps, bind_eq_ok]
      constructor
      · intro h l hl
        obtain ⟨_, hfirst, hrest⟩ := h
        rcases stepsRead_cons.1 hl with hhere | hlater
        · exact hstep.1 hfirst l hhere
        · exact ih.1 hrest l hlater
      · intro h
        exact ⟨(), hstep.2 fun l hl => h l (stepsRead_cons.2 (.inl hl)),
          ih.2 fun l hl => h l (stepsRead_cons.2 (.inr hl))⟩

end Steps

/-! ## Paths -/

/-- The locals a statement defines; an update is not among them. -/
def HirStatementKind.defines : HirStatementKind → List LocalId
  | .Write (.DefineLocal target) _ => [target]
  | kind => kind.destinations.filterMap HirLocalDestination.defined

/-- What is defined after some statements. -/
def definedAfter (statements : List HirStatement) (defined : Definitions) : Definitions :=
  statements.foldl (fun defined statement => defined ∪ statement.kind.defines.toFinset) defined

/-- What is defined at the end of an edge, from what is defined when it is taken. -/
inductive EdgeDefines : HirTerminator → Definitions → BlockId → Definitions → Prop
  | jump {target args d} :
      EdgeDefines (.Jump target args) d target (d ∪ (args.map (·.destination)).toFinset)
  | success {id operation success results failure error d} :
      EdgeDefines (.Invoke id operation success results failure error) d success
        ((d \ insert error results.toFinset) ∪ results.toFinset)
  | failure {id operation success results failure error d} :
      EdgeDefines (.Invoke id operation success results failure error) d failure
        ((d \ insert error results.toFinset) ∪ {error})
  | other {terminator target d} : (∀ t args, terminator ≠ .Jump t args) →
      (∀ id operation success results failure error,
        terminator ≠ .Invoke id operation success results failure error) →
      target ∈ terminator.targets → EdgeDefines terminator d target d

/-- A path from the entry of the function enters the block with these locals defined. -/
inductive EntersWith (hir : HirModule) (function : HirFunction) : BlockId → Definitions → Prop
  | entry : EntersWith hir function function.entry function.params.toFinset
  | edge {id target block d d'} : EntersWith hir function id d →
      hir.blockById id = some block →
      EdgeDefines block.terminator (definedAfter block.statements d) target d' →
      EntersWith hir function target d'

/-- The rest of a block reads only what is defined when it does. -/
def ReadsDefined (store : HirExpressionStore) (terminator : HirTerminator) :
    List HirStatement → Definitions → Prop
  | [], d => ∀ l, TerminatorUses store l terminator → l ∈ d
  | statement :: rest, d =>
      (∀ l, StatementUses store l statement.kind → l ∈ d) ∧
        ReadsDefined store terminator rest (d ∪ statement.kind.defines.toFinset)

/-! ## One block -/

section Block

variable {store : HirExpressionStore} {terminator : HirTerminator} {l : LocalId}
  {defined : Definitions}

/-- What the solver enters for a statement: all it writes as a whole. -/
def HirStatementKind.enters : HirStatementKind → List LocalId
  | .Write (.DefineLocal target) _ => [target]
  | kind => kind.destinations.map HirLocalDestination.localId

theorem transferStatementDefinitions_eq (kind : HirStatementKind) (defined : Definitions) :
    transferStatementDefinitions kind defined = defined ∪ kind.enters.toFinset := by
  cases kind with
  | Write target value =>
      cases target <;> simp [transferStatementDefinitions, HirStatementKind.enters,
        HirStatementKind.destinations]
  | MapOp op receiver args result =>
      cases result <;> simp [transferStatementDefinitions, HirStatementKind.enters,
        HirStatementKind.destinations]
  | RangeCandidate current step last inclusive domain candidateResult inRangeResult =>
      ext l
      simp only [transferStatementDefinitions, HirStatementKind.enters,
        HirStatementKind.destinations, Finset.mem_insert, Finset.mem_union, List.mem_toFinset,
        List.map_cons, List.map_nil, List.mem_cons, List.not_mem_nil, or_false]
      tauto
  | _ =>
      simp [transferStatementDefinitions, HirStatementKind.enters, HirStatementKind.destinations]

theorem defines_subset_enters {kind : HirStatementKind} :
    ∀ l ∈ kind.defines, l ∈ kind.enters := by
  have hdestinations : ∀ destinations : List HirLocalDestination,
      ∀ l ∈ destinations.filterMap HirLocalDestination.defined,
        l ∈ destinations.map HirLocalDestination.localId := by
    intro destinations l hl
    obtain ⟨destination, hmem, hdefined⟩ := List.mem_filterMap.1 hl
    rw [defined_eq_some.1 hdefined] at hmem
    exact List.mem_map.2 ⟨_, hmem, rfl⟩
  cases kind with
  | Write target value =>
      cases target with
      | DefineLocal target => exact fun l hl => hl
      | AssignPlace place => exact fun l hl => hl
  | _ => exact hdestinations _

theorem updates_of_enters {kind : HirStatementKind} :
    ∀ l ∈ kind.enters, l ∈ kind.defines ∨ l ∈ kind.readLocals := by
  have hdestinations : ∀ destinations : List HirLocalDestination,
      ∀ l ∈ destinations.map HirLocalDestination.localId,
        l ∈ destinations.filterMap HirLocalDestination.defined ∨
          l ∈ destinations.filterMap HirLocalDestination.updated := by
    intro destinations l hl
    obtain ⟨destination, hmem, rfl⟩ := List.mem_map.1 hl
    cases destination with
    | Define target => exact .inl (List.mem_filterMap.2 ⟨_, hmem, rfl⟩)
    | Update target => exact .inr (List.mem_filterMap.2 ⟨_, hmem, rfl⟩)
  cases kind with
  | Write target value =>
      cases target with
      | DefineLocal target => exact fun l hl => .inl hl
      | AssignPlace place => exact fun l hl => absurd hl List.not_mem_nil
  | PushRuntimeFragment vecLocal value => exact fun l hl => absurd hl List.not_mem_nil
  | _ => exact hdestinations _

theorem transferStatementDefinitions_union (kind : HirStatementKind) (defined : Definitions) :
    transferStatementDefinitions kind defined =
      defined ∪ transferStatementDefinitions kind ∅ := by
  rw [transferStatementDefinitions_eq, transferStatementDefinitions_eq kind ∅,
    Finset.empty_union]

theorem transferStatements_union (statements : List HirStatement) (defined : Definitions) :
    transferStatements statements defined = defined ∪ transferStatements statements ∅ := by
  induction statements generalizing defined with
  | nil => exact (Finset.union_empty defined).symm
  | cons statement rest ih =>
      show transferStatements rest (transferStatementDefinitions statement.kind defined) =
        defined ∪ transferStatements rest (transferStatementDefinitions statement.kind ∅)
      rw [ih, ih (transferStatementDefinitions statement.kind ∅),
        transferStatementDefinitions_union, Finset.union_assoc]

theorem transferStatementDefinitions_of_uses {kind : HirStatementKind}
    (h : ∀ l, StatementUses store l kind → l ∈ defined) :
    transferStatementDefinitions kind defined = defined ∪ kind.defines.toFinset := by
  rw [transferStatementDefinitions_eq]
  refine Finset.Subset.antisymm (fun l hl => ?_) (fun l hl => ?_)
  · rcases Finset.mem_union.1 hl with hold | henters
    · exact Finset.mem_union_left _ hold
    · rcases updates_of_enters l (List.mem_toFinset.1 henters) with hdefines | hreads
      · exact Finset.mem_union_right _ (List.mem_toFinset.2 hdefines)
      · exact Finset.mem_union_left _ (h l (.inr hreads))
  · rcases Finset.mem_union.1 hl with hold | hdefines
    · exact Finset.mem_union_left _ hold
    · exact Finset.mem_union_right _
        (List.mem_toFinset.2 (defines_subset_enters l (List.mem_toFinset.1 hdefines)))

/-- The rest of a block reads the local before the solver has entered it. -/
def Exposed (store : HirExpressionStore) (l : LocalId) (terminator : HirTerminator) :
    List HirStatement → Prop
  | [] => TerminatorUses store l terminator
  | statement :: rest => StatementUses store l statement.kind ∨
      l ∉ transferStatementDefinitions statement.kind ∅ ∧ Exposed store l terminator rest

theorem validateBlockReads_ok {statements : List HirStatement} :
    validateBlockReads store terminator statements defined = .ok () ↔
      ∀ l, Exposed store l terminator statements → l ∈ defined := by
  induction statements generalizing defined with
  | nil =>
      rw [validateBlockReads, validateReadSteps_ok]
      exact forall_congr' fun l => by rw [stepsRead_terminator]; rfl
  | cons statement rest ih =>
      rw [validateBlockReads, bind_eq_ok]
      constructor
      · intro h l hl
        obtain ⟨_, hfirst, hrest⟩ := h
        rcases hl with huse | ⟨hnew, hlater⟩
        · exact validateReadSteps_ok.1 hfirst l (stepsRead_statement.2 huse)
        · have hin := ih.1 hrest l hlater
          rw [transferStatementDefinitions_union, Finset.mem_union] at hin
          exact hin.resolve_right hnew
      · intro h
        refine ⟨(), validateReadSteps_ok.2 fun l hl => ?_, ih.2 fun l hl => ?_⟩
        · exact h l (.inl (stepsRead_statement.1 hl))
        · rw [transferStatementDefinitions_union, Finset.mem_union]
          by_cases hnew : l ∈ transferStatementDefinitions statement.kind ∅
          · exact .inr hnew
          · exact .inl (h l (.inr ⟨hnew, hl⟩))

/-- The check of a block is the one a path makes. -/
theorem validateBlockReads_iff {statements : List HirStatement} :
    validateBlockReads store terminator statements defined = .ok () ↔
      ReadsDefined store terminator statements defined := by
  induction statements generalizing defined with
  | nil =>
      rw [validateBlockReads, validateReadSteps_ok]
      exact forall_congr' fun l => by rw [stepsRead_terminator]
  | cons statement rest ih =>
      have huses : validateReadSteps store defined statement.kind.readSteps = .ok () ↔
          ∀ l, StatementUses store l statement.kind → l ∈ defined := by
        rw [validateReadSteps_ok]
        exact forall_congr' fun l => by rw [stepsRead_statement]
      rw [validateBlockReads, bind_eq_ok, ReadsDefined]
      constructor
      · intro h
        obtain ⟨_, hfirst, hrest⟩ := h
        have hall := huses.1 hfirst
        rw [transferStatementDefinitions_of_uses hall] at hrest
        exact ⟨hall, ih.1 hrest⟩
      · intro h
        refine ⟨(), huses.2 h.1, ?_⟩
        rw [transferStatementDefinitions_of_uses h.1]
        exact ih.2 h.2

theorem transferStatements_of_readsDefined {statements : List HirStatement}
    (h : ReadsDefined store terminator statements defined) :
    transferStatements statements defined = definedAfter statements defined := by
  induction statements generalizing defined with
  | nil => rfl
  | cons statement rest ih =>
      show transferStatements rest (transferStatementDefinitions statement.kind defined) =
        definedAfter rest (defined ∪ statement.kind.defines.toFinset)
      rw [transferStatementDefinitions_of_uses h.1]
      exact ih h.2

/-- The edges the solver follows. -/
theorem mem_edgeDefinitions {target : BlockId} {d : Definitions} :
    (target, d) ∈ edgeDefinitions terminator defined ↔ EdgeDefines terminator defined target d := by
  cases terminator with
  | Jump successor args =>
      rw [edgeDefinitions, List.mem_singleton, Prod.mk.injEq]
      constructor
      · intro h
        rw [h.1, h.2]
        exact .jump
      · intro h
        cases h with
        | jump => exact ⟨rfl, rfl⟩
        | other hjump => exact absurd rfl (hjump _ _)
  | Invoke id operation success results failure error =>
      have hrest : (defined \ results.toFinset).erase error =
          defined \ insert error results.toFinset := by
        rw [Finset.sdiff_insert]
      simp only [edgeDefinitions, List.mem_cons, Prod.mk.injEq, List.not_mem_nil, or_false, hrest,
        Finset.insert_eq, Finset.union_comm {error} (defined \ _)]
      constructor
      · intro h
        rcases h with ⟨rfl, rfl⟩ | ⟨rfl, rfl⟩
        · exact .success
        · exact .failure
      · intro h
        cases h with
        | success => exact .inl ⟨rfl, rfl⟩
        | failure => exact .inr ⟨rfl, rfl⟩
        | other _ hinvoke => exact absurd rfl (hinvoke _ _ _ _ _ _)
  | _ =>
      simp only [edgeDefinitions, List.mem_map, Prod.mk.injEq]
      constructor
      · intro h
        obtain ⟨t, ht, rfl, rfl⟩ := h
        exact .other (fun _ _ => nofun) (fun _ _ _ _ _ _ => nofun) ht
      · intro h
        cases h with
        | other _ _ ht => exact ⟨target, ht, rfl, rfl⟩

end Block

/-! ## The solver on the module's edges -/

/-- What the edges of a terminator remove and add, after what its block adds. -/
def edgeGenKill (terminator : HirTerminator) (gen : Definitions) :
    List (BlockId × GenKill LocalId) :=
  match terminator with
  | .Invoke _ _ success results failure error =>
      let kill := insert error results.toFinset
      [(success, ⟨kill, (gen \ kill) ∪ results.toFinset⟩), (failure, ⟨kill, (gen \ kill) ∪ {error}⟩)]
  | .Jump target args => [(target, ⟨∅, gen ∪ (args.map (·.destination)).toFinset⟩)]
  | terminator => terminator.targets.map fun target => (target, ⟨∅, gen⟩)

def definitionEdges (hir : HirModule) (id : BlockId) : List (BlockId × GenKill LocalId) :=
  match hir.blockById id with
  | none => []
  | some block => edgeGenKill block.terminator (transferStatements block.statements ∅)

theorem edgeDefinitions_union (terminator : HirTerminator) (defined gen : Definitions) :
    edgeDefinitions terminator (defined ∪ gen) =
      (edgeGenKill terminator gen).map fun e => (e.1, e.2.apply defined) := by
  have hkill : ∀ (error : LocalId) (kill : Definitions) (added : Definitions),
      ((defined ∪ gen) \ kill).erase error ∪ added =
        (defined \ insert error kill) ∪ ((gen \ insert error kill) ∪ added) := by
    intro error kill added
    rw [← Finset.sdiff_insert, Finset.union_sdiff_distrib, Finset.union_assoc]
  cases terminator with
  | Jump target args => simp [edgeDefinitions, edgeGenKill, GenKill.apply, Finset.union_assoc]
  | Invoke id operation success results failure error =>
      simp only [edgeDefinitions, edgeGenKill, List.map_cons, List.map_nil, GenKill.apply]
      rw [hkill, Finset.insert_eq error (Finset.erase _ _),
        Finset.union_comm {error} (Finset.erase _ _), hkill]
  | _ => simp [edgeDefinitions, edgeGenKill, GenKill.apply]

theorem edgeGenKill_target {terminator : HirTerminator} {gen : Definitions}
    {e : BlockId × GenKill LocalId} (h : e ∈ edgeGenKill terminator gen) :
    e.1 ∈ terminator.targets := by
  cases terminator with
  | Jump target args =>
      rw [edgeGenKill, List.mem_singleton] at h
      rw [h]
      exact List.mem_singleton.2 rfl
  | Invoke id operation success results failure error =>
      simp only [edgeGenKill, List.mem_cons, List.not_mem_nil, or_false] at h
      rcases h with rfl | rfl
      · exact List.mem_cons_self
      · exact List.mem_cons_of_mem _ List.mem_cons_self
  | _ =>
      obtain ⟨target, htarget, rfl⟩ := List.mem_map.1 h
      exact htarget

theorem edgeGenKill_gen {terminator : HirTerminator} {gen : Definitions}
    {e : BlockId × GenKill LocalId} (h : e ∈ edgeGenKill terminator gen) :
    e.2.gen ⊆ gen ∪ terminator.edgeLocals := by
  cases terminator with
  | Jump target args =>
      rw [edgeGenKill, List.mem_singleton] at h
      rw [h]
      exact Finset.Subset.refl _
  | Invoke id operation success results failure error =>
      simp only [edgeGenKill, List.mem_cons, List.not_mem_nil, or_false] at h
      rcases h with rfl | rfl
      · exact Finset.union_subset_union Finset.sdiff_subset (Finset.subset_insert _ _)
      · exact Finset.union_subset_union Finset.sdiff_subset
          (Finset.singleton_subset_iff.2 (Finset.mem_insert_self _ _))
  | _ =>
      obtain ⟨target, -, rfl⟩ := List.mem_map.1 h
      exact Finset.subset_union_left

theorem subset_foldr_union {sets : List Definitions} {set : Definitions} (h : set ∈ sets) :
    set ⊆ sets.foldr (· ∪ ·) ∅ := by
  induction sets with
  | nil => exact absurd h List.not_mem_nil
  | cons first rest ih =>
      rw [List.foldr_cons]
      rcases List.mem_cons.1 h with rfl | hrest
      · exact Finset.subset_union_left
      · exact (ih hrest).trans Finset.subset_union_right

/-! ## The module -/

/-- What the structural checks establish before this one runs: block ids are
distinct, edges lead to blocks, and no block is reached from two functions. -/
structure ValidFlow (hir : HirModule) : Prop where
  distinct : (hir.blocks.map fun block => block.id).Nodup
  entry : ∀ function ∈ hir.functions, ∃ block, hir.blockById function.entry = some block
  target : ∀ block ∈ hir.blocks, ∀ id ∈ block.terminator.targets,
    ∃ next, hir.blockById id = some next
  disjoint : hir.functions.Pairwise fun f g => ∀ id,
    ¬ (Relation.ReflTransGen hir.flowGraph.Edge f.entry id ∧
      Relation.ReflTransGen hir.flowGraph.Edge g.entry id)

section Module

variable {hir : HirModule}

theorem blockById_of_mem (hvalid : ValidFlow hir) {block : HirBlock} (h : block ∈ hir.blocks) :
    hir.blockById block.id = some block := by
  cases hfound : hir.blockById block.id with
  | none =>
      have hnone := List.find?_eq_none.1 hfound block h
      exact absurd (decide_eq_true rfl) hnone
  | some other =>
      have hid := HirModule.blockById_id hfound
      rw [List.inj_on_of_nodup_map hvalid.distinct (HirModule.blockById_mem hfound) h hid]

theorem exists_block_of_mem_ids (hvalid : ValidFlow hir) {id : BlockId}
    (h : id ∈ hir.blocks.map fun block => block.id) : ∃ block, hir.blockById id = some block := by
  obtain ⟨block, hmem, rfl⟩ := List.mem_map.1 h
  exact ⟨block, blockById_of_mem hvalid hmem⟩

theorem mem_ids_of_blockById {id : BlockId} {block : HirBlock} (h : hir.blockById id = some block) :
    id ∈ hir.blocks.map fun block => block.id :=
  List.mem_map.2 ⟨block, HirModule.blockById_mem h, HirModule.blockById_id h⟩

theorem visitDefinitions_eq {id : BlockId} {block : HirBlock} (h : hir.blockById id = some block)
    (d : Definitions) :
    visitDefinitions hir id (some d) =
      .ok ((definitionEdges hir id).map fun e => (e.1, e.2.apply d)) := by
  simp only [visitDefinitions, definitionEdges, h]
  rw [transferStatements_union, edgeDefinitions_union]

theorem definitionEdges_lawful (hvalid : ValidFlow hir) :
    DefiniteFlow.Lawful (visitDefinitions hir) (definitionEdges hir)
      (hir.blocks.map fun block => block.id) hir.definableLocals where
  visit_eq := by
    intro id hid d
    obtain ⟨block, hblock⟩ := exists_block_of_mem_ids hvalid hid
    exact visitDefinitions_eq hblock d
  target_mem := by
    intro id hid e he
    obtain ⟨block, hblock⟩ := exists_block_of_mem_ids hvalid hid
    simp only [definitionEdges, hblock] at he
    obtain ⟨next, hnext⟩ :=
      hvalid.target block (HirModule.blockById_mem hblock) e.1 (edgeGenKill_target he)
    exact mem_ids_of_blockById hnext
  gen_subset := by
    intro id hid e he
    obtain ⟨block, hblock⟩ := exists_block_of_mem_ids hvalid hid
    simp only [definitionEdges, hblock] at he
    refine (edgeGenKill_gen he).trans (Finset.Subset.trans ?_ Finset.subset_union_right)
    exact subset_foldr_union (List.mem_map.2 ⟨block, HirModule.blockById_mem hblock, rfl⟩)

/-- The seed of a function. -/
def functionSeed (function : HirFunction) : BlockId × Definitions :=
  (function.entry, function.params.toFinset)

theorem reaches_of_entersBy {functions : List HirFunction} {id : BlockId} {d : Definitions}
    (h : EntersBy (definitionEdges hir) (functions.map functionSeed) id d) :
    ∃ function ∈ functions, Relation.ReflTransGen hir.flowGraph.Edge function.entry id := by
  induction h with
  | seed hs =>
      obtain ⟨function, hmem, heq⟩ := List.mem_map.1 hs
      cases heq
      exact ⟨function, hmem, .refl⟩
  | @edge b c e d _ he ih =>
      obtain ⟨function, hmem, hreach⟩ := ih
      cases hblock : hir.blockById b with
      | none =>
          simp only [definitionEdges, hblock] at he
          exact absurd he List.not_mem_nil
      | some block =>
          simp only [definitionEdges, hblock] at he
          exact ⟨function, hmem, hreach.tail
            ⟨_, HirModule.flowGraph_successors hblock, edgeGenKill_target he⟩⟩

/-- The functions are solved one after the other, and none disturbs the earlier ones. -/
theorem solveDefinitions_sound (hvalid : ValidFlow hir) {done rest : List HirFunction}
    {state : DefiniteFlow.State BlockId LocalId} (hsplit : hir.functions = done ++ rest)
    (hsound : DefiniteFlow.Sound (definitionEdges hir) (hir.blocks.map fun block => block.id)
      hir.definableLocals (done.map functionSeed) state)
    (hempty : state.pending = []) :
    ∃ solved, solveDefinitions hir rest state = some (.ok solved) ∧
      DefiniteFlow.Sound (definitionEdges hir) (hir.blocks.map fun block => block.id)
        hir.definableLocals (hir.functions.map functionSeed) solved ∧ solved.pending = [] := by
  induction rest generalizing done state with
  | nil =>
      rw [List.append_nil] at hsplit
      rw [hsplit]
      exact ⟨state, rfl, hsound, hempty⟩
  | cons function rest ih =>
      have hmem : function ∈ hir.functions := by
        rw [hsplit]
        exact List.mem_append_right _ List.mem_cons_self
      obtain ⟨block, hblock⟩ := hvalid.entry function hmem
      have hlisted : function.params.toFinset ∈
          hir.functions.map fun function => function.params.toFinset :=
        List.mem_map.2 ⟨function, hmem, rfl⟩
      have hparams : function.params.toFinset ⊆ hir.definableLocals :=
        (subset_foldr_union hlisted).trans Finset.subset_union_left
      have hnew : ∀ d, ¬ EntersBy (definitionEdges hir) (done.map functionSeed)
          function.entry d := by
        intro d hpath
        obtain ⟨earlier, hearlier, hreach⟩ := reaches_of_entersBy hpath
        have hdisjoint := hvalid.disjoint
        rw [hsplit, List.pairwise_append] at hdisjoint
        exact hdisjoint.2.2 earlier hearlier function List.mem_cons_self function.entry
          ⟨hreach, .refl⟩
      have hseeded := hsound.seed hempty (mem_ids_of_blockById hblock) hparams hnew
      have hone : (state.seed function.entry function.params.toFinset).pending.length = 1 := by
        rw [DefiniteFlow.State.seed, hempty]
        rfl
      have htotal := DefiniteFlow.total_le (hir.blocks.map fun block => block.id)
        fun b d hb => (hseeded.within b d hb).2
      have hfuel : (state.seed function.entry function.params.toFinset).pending.length +
          DefiniteFlow.total (hir.blocks.map fun block => block.id) hir.definableLocals
            (state.seed function.entry function.params.toFinset) < definitionFuel hir := by
        rw [definitionFuel, DefiniteFlow.enough]
        omega
      obtain ⟨next, hrun, hnext, hnil⟩ := hseeded.run (definitionEdges_lawful hvalid) hfuel
      have hmap : done.map functionSeed ++ [(function.entry, function.params.toFinset)] =
          (done ++ [function]).map functionSeed := by
        rw [List.map_append]
        rfl
      rw [hmap] at hnext
      obtain ⟨solved, hsolved, hrest⟩ :=
        @ih (done ++ [function]) next (by rw [hsplit, List.append_assoc]; rfl) hnext hnil
      refine ⟨solved, ?_, hrest⟩
      rw [solveDefinitions, hrun]
      exact hsolved

theorem validateReads_ok {incoming : BlockId → Option Definitions} {blocks : List HirBlock} :
    validateReads hir incoming blocks = .ok () ↔
      ∀ block ∈ blocks, ∀ d, incoming block.id = some d →
        validateBlockReads hir.expressions block.terminator block.statements d = .ok () := by
  induction blocks with
  | nil => simp [validateReads]
  | cons block rest ih =>
      rw [validateReads]
      cases hblock : incoming block.id with
      | none => simp [hblock, ih]
      | some d =>
          simp only [bind_eq_ok, ih, List.mem_cons, forall_eq_or_imp, hblock, Option.some.injEq,
            forall_eq']
          constructor
          · intro h
            obtain ⟨_, hfirst, hrest⟩ := h
            exact ⟨hfirst, hrest⟩
          · intro h
            exact ⟨(), h.1, h.2⟩

/-! ## Both kinds of path -/

/-- All reads of the blocks on the solver's paths are defined. -/
def SolverReadsDefined (hir : HirModule) : Prop :=
  ∀ id d, EntersBy (definitionEdges hir) (hir.functions.map functionSeed) id d →
    ∀ block, hir.blockById id = some block →
      ReadsDefined hir.expressions block.terminator block.statements d

/-- All reads of every path of every function are defined. -/
def PathReadsDefined (hir : HirModule) : Prop :=
  ∀ function ∈ hir.functions, ∀ id d, EntersWith hir function id d →
    ∀ block, hir.blockById id = some block →
      ReadsDefined hir.expressions block.terminator block.statements d

theorem mem_definitionEdges {id target : BlockId} {block : HirBlock} {d d' : Definitions}
    (hblock : hir.blockById id = some block) :
    (∃ e, (target, e) ∈ definitionEdges hir id ∧ d' = e.apply d) ↔
      EdgeDefines block.terminator (transferStatements block.statements d) target d' := by
  rw [← mem_edgeDefinitions, transferStatements_union, edgeDefinitions_union, List.mem_map]
  simp only [definitionEdges, hblock]
  constructor
  · intro h
    obtain ⟨e, he, heq⟩ := h
    exact ⟨(target, e), he, by rw [heq]⟩
  · intro h
    obtain ⟨e, he, heq⟩ := h
    cases heq
    exact ⟨e.2, he, rfl⟩

theorem entersBy_of_entersWith (hreads : SolverReadsDefined hir) {function : HirFunction}
    (hmem : function ∈ hir.functions) {id : BlockId} {d : Definitions}
    (h : EntersWith hir function id d) :
    EntersBy (definitionEdges hir) (hir.functions.map functionSeed) id d := by
  induction h with
  | entry => exact .seed (List.mem_map.2 ⟨function, hmem, rfl⟩)
  | edge _ hblock hedge ih =>
      rw [← transferStatements_of_readsDefined (hreads _ _ ih _ hblock)] at hedge
      obtain ⟨e, he, rfl⟩ := (mem_definitionEdges hblock).2 hedge
      exact ih.edge he

theorem entersWith_of_entersBy (hreads : PathReadsDefined hir) {id : BlockId} {d : Definitions}
    (h : EntersBy (definitionEdges hir) (hir.functions.map functionSeed) id d) :
    ∃ function ∈ hir.functions, EntersWith hir function id d := by
  induction h with
  | seed hs =>
      obtain ⟨function, hmem, heq⟩ := List.mem_map.1 hs
      cases heq
      exact ⟨function, hmem, .entry⟩
  | @edge b c e d _ he ih =>
      obtain ⟨function, hmem, hpath⟩ := ih
      cases hblock : hir.blockById b with
      | none =>
          simp only [definitionEdges, hblock] at he
          exact absurd he List.not_mem_nil
      | some block =>
          have hedge := (mem_definitionEdges (d := d) hblock).1 ⟨e, he, rfl⟩
          rw [transferStatements_of_readsDefined (hreads function hmem b d hpath block hblock)]
            at hedge
          exact ⟨function, hmem, hpath.edge hblock hedge⟩

theorem solverReadsDefined_iff : SolverReadsDefined hir ↔ PathReadsDefined hir := by
  constructor
  · intro h function hmem id d hpath
    exact h id d (entersBy_of_entersWith h hmem hpath)
  · intro h id d hpath
    obtain ⟨function, hmem, hwith⟩ := entersWith_of_entersBy h hpath
    exact h function hmem id d hwith

/-- A set that holds exactly what every path holds passes the check of a block
exactly when every path does. -/
theorem validateReads_of_exact (hvalid : ValidFlow hir)
    {state : DefiniteFlow.State BlockId LocalId}
    (hexact : DefiniteFlow.Exact (definitionEdges hir) (hir.functions.map functionSeed) state) :
    validateReads hir state.incoming hir.blocks = .ok () ↔ SolverReadsDefined hir := by
  rw [validateReads_ok]
  constructor
  · intro h id d hpath block hblock
    rw [← validateBlockReads_iff, validateBlockReads_ok]
    intro l hl
    have hat := hexact id
    cases hincoming : state.incoming id with
    | none =>
        rw [hincoming] at hat
        exact absurd hpath (hat d)
    | some x =>
        rw [hincoming] at hat
        have hid := HirModule.blockById_id hblock
        have hok := h block (HirModule.blockById_mem hblock) x (by rw [hid, hincoming])
        exact (hat.2 l).1 (validateBlockReads_ok.1 hok l hl) d hpath
  · intro h block hmem x hincoming
    rw [validateBlockReads_ok]
    intro l hl
    have hat := hexact block.id
    rw [hincoming] at hat
    refine (hat.2 l).2 fun d hpath => ?_
    have hreads := h block.id d hpath block (blockById_of_mem hvalid hmem)
    rw [← validateBlockReads_iff, validateBlockReads_ok] at hreads
    exact hreads l hl

/-- The check ends, and accepts a module exactly when on every path from the
entry of a function every read is a read of a local the path has defined. -/
theorem validateFunctionDefinitions_exact (hir : HirModule) (hvalid : ValidFlow hir) :
    ∃ outcome, validateFunctionDefinitions hir = some outcome ∧
      (outcome = .ok () ↔ PathReadsDefined hir) := by
  obtain ⟨solved, hsolved, hsound, hempty⟩ :=
    @solveDefinitions_sound hir hvalid [] hir.functions .empty rfl DefiniteFlow.Sound.empty rfl
  refine ⟨validateReads hir solved.incoming hir.blocks, ?_, ?_⟩
  · rw [validateFunctionDefinitions, hsolved]
  · rw [validateReads_of_exact hvalid (hsound.exact hempty), solverReadsDefined_iff]

end Module

/-! ## A loop through a jump argument -/

theorem loopExpression_rank (_ : HirValueId) :
    ∀ child ∈ (HirExpressionKind.Bool true).childValues, 0 < (0 : Nat) :=
  fun _ hchild => absurd hchild List.not_mem_nil

/-- The entry passes its parameter to a block that passes its own local on to
itself or leaves with it. -/
def loopModule : HirModule where
  expressions := ⟨fun _ => ⟨.Bool true, ⟨0⟩, .RValue⟩, fun _ => 0, loopExpression_rank⟩
  blocks :=
    [⟨⟨0⟩, ⟨0⟩, [⟨⟨0⟩, ⟨0⟩, false, ⟨0⟩⟩], [], .Jump ⟨1⟩ [⟨⟨0⟩, ⟨1⟩⟩]⟩,
      ⟨⟨1⟩, ⟨0⟩, [⟨⟨1⟩, ⟨0⟩, false, ⟨0⟩⟩], [], .If ⟨0⟩ ⟨2⟩ ⟨3⟩⟩,
      ⟨⟨2⟩, ⟨0⟩, [], [], .Jump ⟨1⟩ [⟨⟨1⟩, ⟨1⟩⟩]⟩,
      ⟨⟨3⟩, ⟨0⟩, [], [], .RuntimeFailure (some (.StoreConversion ⟨1⟩))⟩]
  functions := [⟨⟨0⟩, ⟨0⟩, [⟨0⟩], [], none⟩]
  regions := [⟨⟨0⟩, none⟩]
  localOriginKind := fun _ => none

theorem loopModule_valid : ValidFlow loopModule where
  distinct := by decide
  entry := by
    intro function hmem
    rw [List.mem_singleton.1 hmem]
    exact ⟨_, rfl⟩
  target := by
    have hall : ∀ block ∈ loopModule.blocks, ∀ id ∈ block.terminator.targets,
        (loopModule.blockById id).isSome := by decide
    exact fun block hmem target hid => Option.isSome_iff_exists.1 (hall block hmem target hid)
  disjoint := List.pairwise_singleton _ _

theorem validateFunctionDefinitions_exact_loop :
    validateFunctionDefinitions loopModule = some (.ok ()) ∧ PathReadsDefined loopModule := by
  obtain ⟨outcome, houtcome, hiff⟩ :=
    validateFunctionDefinitions_exact loopModule loopModule_valid
  have hcheck : (validateFunctionDefinitions loopModule).any Except.toBool = true := by
    decide +kernel
  rw [houtcome, Option.any_some] at hcheck
  cases outcome with
  | error failure => cases hcheck
  | ok _ => exact ⟨houtcome, hiff.1 rfl⟩

end Moth.Hir
