import Moth.Borrow.CallSummaries
import Moth.Lib.Result

/-!
# Settling parameter mutation

A visit of a function only marks parameters, marks no less where more is
marked already, and fails wherever it fails with less marked. So the passes
over the functions end after at most one pass for each parameter, with the
least marking that no visit extends: the parameters that are roots of what
their function mutates itself, and of what it passes on to marked parameters.
-/

namespace Moth.Borrow

open Moth.Hir Moth.Lib

/-! ## Marks -/

def clearMark (parameter : PublicCallParameterSummary) : PublicCallParameterSummary :=
  { parameter with mutation := .NoWrite }

def clearMarks (summary : PublicCallSummary) : PublicCallSummary :=
  { summary with parameters := summary.parameters.map clearMark }

/-- The parameter of the function at the position is marked as written. -/
def Marked (table : SummaryTable) (id : FunctionId) (position : Nat) : Prop :=
  ∃ summary parameter, table id = some summary ∧ summary.parameters[position]? = some parameter ∧
    parameter.mutation = .Writes

def HasParameter (table : SummaryTable) (id : FunctionId) (position : Nat) : Prop :=
  ∃ summary, table id = some summary ∧ position < summary.parameters.length

/-- Two tables differ in marks at most. -/
def SameButMarks (table above : SummaryTable) : Prop :=
  ∀ id, (above id).map clearMarks = (table id).map clearMarks

/-- A table with at least the marks of another, and nothing else changed. -/
structure MarksBelow (table above : SummaryTable) : Prop where
  same : SameButMarks table above
  marks : ∀ {id position}, Marked table id position → Marked above id position

theorem MarksBelow.refl (table : SummaryTable) : MarksBelow table table := ⟨fun _ => rfl, id⟩

theorem MarksBelow.trans {a b c : SummaryTable} (h : MarksBelow a b) (h' : MarksBelow b c) :
    MarksBelow a c :=
  ⟨fun id => (h'.same id).trans (h.same id), fun hmark => h'.marks (h.marks hmark)⟩

theorem SameButMarks.some {table above : SummaryTable} (h : SameButMarks table above)
    {id : FunctionId} {summary : PublicCallSummary} (hsummary : table id = some summary) :
    ∃ summary', above id = some summary' ∧ clearMarks summary' = clearMarks summary := by
  have hid := h id
  rw [hsummary, Option.map_some, Option.map_eq_some_iff] at hid
  exact hid

theorem clearMarks_length {summary summary' : PublicCallSummary}
    (h : clearMarks summary' = clearMarks summary) :
    summary'.parameters.length = summary.parameters.length := by
  have hparameters := congrArg (fun s => s.parameters.length) h
  simp only [clearMarks, List.length_map] at hparameters
  exact hparameters

theorem eq_of_clearMark {parameter parameter' : PublicCallParameterSummary}
    (hclear : clearMark parameter' = clearMark parameter)
    (hmark : parameter'.mutation = .Writes ↔ parameter.mutation = .Writes) :
    parameter' = parameter := by
  obtain ⟨access, mutation, transfer⟩ := parameter
  obtain ⟨access', mutation', transfer'⟩ := parameter'
  simp only [clearMark, PublicCallParameterSummary.mk.injEq, true_and] at hclear
  obtain ⟨haccess, htransfer⟩ := hclear
  subst haccess htransfer
  cases mutation <;> cases mutation' <;> simp_all

/-- Tables with the same marks and otherwise the same contents are equal. -/
theorem MarksBelow.antisymm {a b : SummaryTable} (h : MarksBelow a b) (h' : MarksBelow b a) :
    a = b := by
  funext id
  cases ha : a id with
  | none =>
      have hid := h.same id
      rw [ha, Option.map_none, Option.map_eq_none_iff] at hid
      exact hid.symm
  | some summary =>
      obtain ⟨summary', hb, hclear⟩ := h.same.some ha
      rw [hb]
      have hmarks : ∀ position : Nat, Marked a id position ↔ Marked b id position :=
        fun position => ⟨h.marks, h'.marks⟩
      obtain ⟨parameters, returnAlias, escapes⟩ := summary
      obtain ⟨parameters', returnAlias', escapes'⟩ := summary'
      have hlength := clearMarks_length hclear
      simp only [clearMarks, PublicCallSummary.mk.injEq] at hclear
      obtain ⟨hparameters, halias, hescapes⟩ := hclear
      subst halias hescapes
      have hsame : parameters' = parameters := by
        refine List.ext_getElem hlength fun position hleft hright => ?_
        have hcell := congrArg (fun l => l[position]?) hparameters
        simp only [List.getElem?_map, List.getElem?_eq_getElem hleft,
          List.getElem?_eq_getElem hright, Option.map_some, Option.some.injEq] at hcell
        refine eq_of_clearMark hcell ?_
        have hposition := hmarks position
        simp only [Marked, ha, hb, Option.some.injEq, exists_eq_left', exists_and_left,
          List.getElem?_eq_getElem hleft, List.getElem?_eq_getElem hright] at hposition
        simpa using hposition.symm
      rw [hsame]

/-! ## Marking -/

section MarkWrites

variable (positions : List Nat)

theorem markWrites_getElem? (parameters : List PublicCallParameterSummary) (start i : Nat) :
    (markWrites positions start parameters).1[i]? = (parameters[i]?).map fun parameter =>
      if start + i ∈ positions then { parameter with mutation := .Writes } else parameter := by
  induction parameters generalizing start i with
  | nil => rfl
  | cons parameter rest ih =>
      rw [markWrites]
      cases i with
      | zero =>
          rw [Nat.add_zero]
          split
          · next hmark =>
              simp [hmark.1]
          · next hmark =>
              by_cases hin : start ∈ positions
              · have hwrites : parameter.mutation = .Writes := by
                  by_contra hne
                  exact hmark ⟨hin, hne⟩
                simp [hin, ← hwrites]
              · simp [hin]
      | succ i =>
          have hrest := ih (start + 1) i
          have hshift : start + 1 + i = start + (i + 1) := by omega
          rw [hshift] at hrest
          split
          · rw [List.getElem?_cons_succ, List.getElem?_cons_succ, hrest]
          · rw [List.getElem?_cons_succ, List.getElem?_cons_succ, hrest]

theorem markWrites_clear (parameters : List PublicCallParameterSummary) (start : Nat) :
    (markWrites positions start parameters).1.map clearMark = parameters.map clearMark := by
  induction parameters generalizing start with
  | nil => rfl
  | cons parameter rest ih =>
      rw [markWrites]
      split
      · rw [List.map_cons, List.map_cons, ih]
        rfl
      · rw [List.map_cons, List.map_cons, ih]

variable {positions} in
theorem markWrites_unchanged {parameters : List PublicCallParameterSummary} {start : Nat}
    (h : (markWrites positions start parameters).2 = false) :
    (markWrites positions start parameters).1 = parameters := by
  induction parameters generalizing start with
  | nil => rfl
  | cons parameter rest ih =>
      rw [markWrites] at h ⊢
      split at h
      · cases h
      · next hmark =>
          rw [if_neg hmark, ih h]

/-- The parameters that are not marked. -/
def unwritten (parameters : List PublicCallParameterSummary) : Nat :=
  parameters.countP fun parameter => decide (parameter.mutation ≠ .Writes)

theorem unwritten_cons (parameter : PublicCallParameterSummary)
    (rest : List PublicCallParameterSummary) :
    unwritten (parameter :: rest) =
      unwritten rest + if parameter.mutation = .Writes then 0 else 1 := by
  rw [unwritten, unwritten, List.countP_cons]
  by_cases hwrites : parameter.mutation = .Writes
  · simp [hwrites]
  · simp [hwrites]

theorem markWrites_unwritten (parameters : List PublicCallParameterSummary) (start : Nat) :
    unwritten (markWrites positions start parameters).1 ≤ unwritten parameters ∧
      ((markWrites positions start parameters).2 = true →
        unwritten (markWrites positions start parameters).1 < unwritten parameters) := by
  induction parameters generalizing start with
  | nil => exact ⟨Nat.le_refl _, fun h => by cases h⟩
  | cons parameter rest ih =>
      obtain ⟨hle, hlt⟩ := ih (start + 1)
      rw [markWrites]
      split
      · next hmark =>
          rw [unwritten_cons, unwritten_cons, if_pos rfl, if_neg hmark.2]
          exact ⟨by omega, fun _ => by omega⟩
      · rw [unwritten_cons, unwritten_cons]
        refine ⟨by omega, fun hchanged => ?_⟩
        have hrest := hlt hchanged
        omega

end MarkWrites

/-! ## What a block mutates -/

/-- A callee, wherever its summary is retained, writes the parameter at the position. -/
def WritesArgument (environment : CallEnvironment) (table : SummaryTable) (target : CallTarget)
    (position : Nat) : Prop :=
  ∃ writes, parameterWrites environment table target = some writes ∧ writes[position]? = some true

/-- The block calls the target with the arguments. -/
def CallSite (block : HirBlock) (target : CallTarget) (args : List HirValueId) : Prop :=
  (∃ statement ∈ block.statements, ∃ results, statement.kind = .Call target args results) ∨
    ∃ id success successResults failure errorResult, block.terminator =
      .Invoke id (.Call target args) success successResults failure errorResult

/-- The block applies a mutating map operation to the receiver. -/
def MutatesMap (block : HirBlock) (receiver : HirValueId) : Prop :=
  ∃ op args, op.requiresMutableReceiver = true ∧
    ((∃ statement ∈ block.statements, ∃ result,
        statement.kind = .MapOp op receiver args result) ∨
      ∃ id success successResults failure errorResult, block.terminator =
        .Invoke id (.MapOp op receiver args) success successResults failure errorResult)

/-- The local is a root of a place that a write statement of the block mutates. -/
def WritesRoot (facts : BorrowFacts) (block : HirBlock) (root : LocalId) : Prop :=
  ∃ statement ∈ block.statements, ∃ target value fact, statement.kind = .Write target value ∧
    facts.statementFacts statement.id = some fact ∧ root ∈ fact.mutableRoots

def IsRoot (facts : BorrowFacts) (value : HirValueId) (root : LocalId) : Prop :=
  ∃ fact, facts.valueFacts value = some fact ∧ root ∈ fact.roots

/-- The local is a root of what a block mutates or passes to a written parameter. -/
def BlockMutates (environment : CallEnvironment) (facts : BorrowFacts) (table : SummaryTable)
    (block : HirBlock) (root : LocalId) : Prop :=
  WritesRoot facts block root ∨ (∃ receiver, MutatesMap block receiver ∧ IsRoot facts receiver root) ∨
    ∃ target args position argument, CallSite block target args ∧
      args[position]? = some argument ∧ WritesArgument environment table target position ∧
      IsRoot facts argument root

section Roots

variable {environment : CallEnvironment} {facts : BorrowFacts} {table : SummaryTable}
  {root : LocalId}

theorem callArgumentWrites_ok {target : CallTarget} {position : Nat} {written : Bool}
    (h : callArgumentWrites environment table target position = .ok written) :
    ∃ writes, parameterWrites environment table target = some writes ∧
      writes[position]? = some written := by
  rw [callArgumentWrites] at h
  split at h
  · cases h
  · next writes hwrites =>
      split at h
      · cases h
      · next hposition =>
          cases h
          exact ⟨writes, hwrites, hposition⟩

theorem mem_argumentMutatedRoots {target : CallTarget} {argument : HirValueId × Nat}
    {roots : List LocalId}
    (h : argumentMutatedRoots environment facts table target argument = .ok roots) :
    root ∈ roots ↔
      WritesArgument environment table target argument.2 ∧ IsRoot facts argument.1 root := by
  rw [argumentMutatedRoots] at h
  split at h
  · cases h
  · next hwritten =>
      cases h
      obtain ⟨writes, hwrites, hposition⟩ := callArgumentWrites_ok hwritten
      refine ⟨fun hin => absurd hin List.not_mem_nil, fun hin => ?_⟩
      obtain ⟨⟨writes', hwrites', hposition'⟩, -⟩ := hin
      rw [hwrites] at hwrites'
      cases hwrites'
      rw [hposition] at hposition'
      cases hposition'
  · next hwritten =>
      obtain ⟨writes, hwrites, hposition⟩ := callArgumentWrites_ok hwritten
      split at h
      · cases h
      · next fact hfact =>
          cases h
          refine ⟨fun hin => ⟨⟨writes, hwrites, hposition⟩, fact, hfact, hin⟩, fun hin => ?_⟩
          obtain ⟨-, fact', hfact', hroot⟩ := hin
          rw [hfact] at hfact'
          cases hfact'
          exact hroot

theorem mem_callMutatedRoots {target : CallTarget} {args : List HirValueId}
    {roots : List LocalId} (h : callMutatedRoots environment facts table target args = .ok roots) :
    root ∈ roots ↔ ∃ position argument, args[position]? = some argument ∧
      WritesArgument environment table target position ∧ IsRoot facts argument root := by
  rw [callMutatedRoots] at h
  cases hrun : args.zipIdx.mapM (argumentMutatedRoots environment facts table target) with
  | error e =>
      rw [hrun] at h
      cases h
  | ok answers =>
      rw [hrun] at h
      cases h
      have hmem : root ∈ answers.flatten ↔ ∃ argument ∈ args.zipIdx,
          WritesArgument environment table target argument.2 ∧ IsRoot facts argument.1 root :=
        mem_mapM_flatten (fun _ _ _ hanswer => mem_argumentMutatedRoots hanswer) hrun
      rw [hmem]
      constructor
      · intro hfound
        obtain ⟨⟨argument, position⟩, hin, hwrites, hroot⟩ := hfound
        exact ⟨position, argument, List.mem_zipIdx_iff_getElem?.1 hin, hwrites, hroot⟩
      · intro hfound
        obtain ⟨position, argument, hargument, hwrites, hroot⟩ := hfound
        exact ⟨(argument, position), List.mem_zipIdx_iff_getElem?.2 hargument, hwrites, hroot⟩

theorem mem_mapMutatedRoots {op : HirMapOp} {receiver : HirValueId} {roots : List LocalId}
    (h : mapMutatedRoots facts op receiver = .ok roots) :
    root ∈ roots ↔ op.requiresMutableReceiver = true ∧ IsRoot facts receiver root := by
  rw [mapMutatedRoots] at h
  split at h
  · next hop =>
      split at h
      · cases h
      · next fact hfact =>
          cases h
          refine ⟨fun hin => ⟨hop, fact, hfact, hin⟩, fun hin => ?_⟩
          obtain ⟨-, fact', hfact', hroot⟩ := hin
          rw [hfact] at hfact'
          cases hfact'
          exact hroot
  · next hop =>
      cases h
      exact ⟨fun hin => absurd hin List.not_mem_nil, fun hin => absurd hin.1 hop⟩

theorem mem_statementMutatedRoots {function : FunctionId} {statement : HirStatement}
    {roots : List LocalId}
    (h : statementMutatedRoots environment facts table function statement = .ok roots) :
    root ∈ roots ↔
      (∃ target value fact, statement.kind = .Write target value ∧
        facts.statementFacts statement.id = some fact ∧ root ∈ fact.mutableRoots) ∨
      (∃ op receiver args result, statement.kind = .MapOp op receiver args result ∧
        op.requiresMutableReceiver = true ∧ IsRoot facts receiver root) ∨
      ∃ target args results, statement.kind = .Call target args results ∧
        ∃ position argument, args[position]? = some argument ∧
          WritesArgument environment table target position ∧ IsRoot facts argument root := by
  rw [statementMutatedRoots] at h
  split at h
  · cases h
  · next fact hfact =>
      cases hkind : statement.kind with
      | Write target value =>
          rw [hkind] at h
          cases h
          simp [hfact]
      | Call target args results =>
          rw [hkind] at h
          simp [mem_callMutatedRoots h]
      | MapOp op receiver args result =>
          rw [hkind] at h
          simp [mem_mapMutatedRoots h]
      | NumericOp op mode operands result =>
          rw [hkind] at h
          cases h
          simp
      | LoopStepFailure cause mode result =>
          rw [hkind] at h
          cases h
          simp
      | FormatFloat source mode result =>
          rw [hkind] at h
          cases h
          simp
      | ValidateFloat source mode result =>
          rw [hkind] at h
          cases h
          simp
      | RangeCandidate current step last inclusive domain candidateResult inRangeResult =>
          rw [hkind] at h
          cases h
          simp
      | Expr value =>
          rw [hkind] at h
          cases h
          simp
      | PushRuntimeFragment vec value =>
          rw [hkind] at h
          cases h
          simp

theorem mem_terminatorMutatedRoots {terminator : HirTerminator} {roots : List LocalId}
    (h : terminatorMutatedRoots environment facts table terminator = .ok roots) :
    root ∈ roots ↔
      (∃ id op receiver args success successResults failure errorResult, terminator =
        .Invoke id (.MapOp op receiver args) success successResults failure errorResult ∧
        op.requiresMutableReceiver = true ∧ IsRoot facts receiver root) ∨
      ∃ id target args success successResults failure errorResult, terminator =
        .Invoke id (.Call target args) success successResults failure errorResult ∧
        ∃ position argument, args[position]? = some argument ∧
          WritesArgument environment table target position ∧ IsRoot facts argument root := by
  rw [terminatorMutatedRoots.eq_def] at h
  split at h
  · simp [mem_callMutatedRoots h]
  · simp [mem_mapMutatedRoots h]
  · next hcall hmap =>
      cases h
      refine ⟨fun hin => absurd hin List.not_mem_nil, fun hin => ?_⟩
      rcases hin with ⟨id, op, receiver, args, success, results, failure, error, heq, -⟩ |
        ⟨id, target, args, success, results, failure, error, heq, -⟩
      · exact absurd heq (hmap _ _ _ _ _ _ _ _)
      · exact absurd heq (hcall _ _ _ _ _ _ _)

/-- The roots found for a block are what it mutates. -/
theorem mem_blockMutatedRoots {function : FunctionId} {block : HirBlock} {roots : List LocalId}
    (h : blockMutatedRoots environment facts table function block = .ok roots) :
    root ∈ roots ↔ BlockMutates environment facts table block root := by
  rw [blockMutatedRoots] at h
  split at h
  · cases h
  · next answers hstatements =>
      split at h
      · cases h
      · next last hlast =>
          cases h
          rw [List.mem_append, mem_terminatorMutatedRoots hlast,
            mem_mapM_flatten (fun _ _ _ hanswer => mem_statementMutatedRoots hanswer) hstatements]
          constructor
          · rintro (⟨statement, hmem, hwrite | hmap | hcall⟩ | hmap | hcall)
            · exact .inl ⟨statement, hmem, hwrite⟩
            · obtain ⟨op, receiver, args, result, hkind, hop, hroot⟩ := hmap
              exact .inr (.inl ⟨receiver, ⟨op, args, hop, .inl ⟨statement, hmem, result, hkind⟩⟩,
                hroot⟩)
            · obtain ⟨target, args, results, hkind, position, argument, hargument, hwrites⟩ := hcall
              exact .inr (.inr ⟨target, args, position, argument,
                .inl ⟨statement, hmem, results, hkind⟩, hargument, hwrites⟩)
            · obtain ⟨id, op, receiver, args, success, results, failure, error, heq, hop, hroot⟩ :=
                hmap
              exact .inr (.inl ⟨receiver, ⟨op, args, hop,
                .inr ⟨id, success, results, failure, error, heq⟩⟩, hroot⟩)
            · obtain ⟨id, target, args, success, results, failure, error, heq, position, argument,
                hargument, hwrites⟩ := hcall
              exact .inr (.inr ⟨target, args, position, argument,
                .inr ⟨id, success, results, failure, error, heq⟩, hargument, hwrites⟩)
          · rintro (hwrite | ⟨receiver, ⟨op, args, hop, hsite⟩, hroot⟩ |
              ⟨target, args, position, argument, hsite, hargument, hwrites⟩)
            · obtain ⟨statement, hmem, hwrite⟩ := hwrite
              exact .inl ⟨statement, hmem, .inl hwrite⟩
            · rcases hsite with ⟨statement, hmem, result, hkind⟩ | hterminator
              · exact .inl ⟨statement, hmem, .inr (.inl ⟨op, receiver, args, result, hkind, hop,
                  hroot⟩)⟩
              · obtain ⟨id, success, results, failure, error, heq⟩ := hterminator
                exact .inr (.inl ⟨id, op, receiver, args, success, results, failure, error, heq,
                  hop, hroot⟩)
            · rcases hsite with ⟨statement, hmem, results, hkind⟩ | hterminator
              · exact .inl ⟨statement, hmem, .inr (.inr ⟨target, args, results, hkind, position,
                  argument, hargument, hwrites⟩)⟩
              · obtain ⟨id, success, results, failure, error, heq⟩ := hterminator
                exact .inr (.inr ⟨id, target, args, success, results, failure, error, heq,
                  position, argument, hargument, hwrites⟩)

end Roots

/-! ## Fewer marks -/

section Mono

variable {environment : CallEnvironment} {facts : BorrowFacts} {table above : SummaryTable}

/-- The flags of the same callee below: as many, and no more of them set. -/
theorem parameterWrites_below (h : MarksBelow table above) {target : CallTarget}
    {writes' : List Bool} (hwrites' : parameterWrites environment above target = some writes') :
    ∃ writes, parameterWrites environment table target = some writes ∧
      writes.length = writes'.length ∧
      ∀ position : Nat, writes[position]? = some true → writes'[position]? = some true := by
  cases target with
  | Local callee =>
      obtain ⟨summary', hsummary', heq'⟩ := Option.map_eq_some_iff.1 hwrites'
      obtain ⟨summary, hsummary, hclear⟩ : ∃ summary, table callee = some summary ∧
          clearMarks summary = clearMarks summary' := by
        have hid := h.same callee
        rw [hsummary', Option.map_some] at hid
        exact Option.map_eq_some_iff.1 hid.symm
      refine ⟨summary.parameters.map fun parameter => decide (parameter.mutation = .Writes), ?_, ?_,
        fun position hposition => ?_⟩
      · rw [parameterWrites, hsummary]
        rfl
      · rw [← heq', List.length_map, List.length_map, clearMarks_length hclear]
      · rw [List.getElem?_map, Option.map_eq_some_iff] at hposition
        obtain ⟨parameter, hparameter, hmark⟩ := hposition
        obtain ⟨summary'', parameter', hsummary'', hparameter', hmark'⟩ :=
          h.marks ⟨summary, parameter, hsummary, hparameter, of_decide_eq_true hmark⟩
        rw [hsummary'] at hsummary''
        cases hsummary''
        rw [← heq', List.getElem?_map, hparameter', Option.map_some, hmark']
        rfl
  | CrossModule _ => exact ⟨writes', hwrites', rfl, fun _ hposition => hposition⟩
  | ModulePrivate _ => exact ⟨writes', hwrites', rfl, fun _ hposition => hposition⟩
  | Generated _ => exact ⟨writes', hwrites', rfl, fun _ hposition => hposition⟩
  | External _ => exact ⟨writes', hwrites', rfl, fun _ hposition => hposition⟩

theorem callArgumentWrites_below (h : MarksBelow table above) {target : CallTarget}
    {position : Nat} {written' : Bool}
    (hwritten' : callArgumentWrites environment above target position = .ok written') :
    ∃ written, callArgumentWrites environment table target position = .ok written ∧
      (written = true → written' = true) := by
  obtain ⟨writes', hwrites', hposition'⟩ := callArgumentWrites_ok hwritten'
  obtain ⟨writes, hwrites, hlength, hflags⟩ := parameterWrites_below h hwrites'
  have hbound : position < writes.length := by
    rw [hlength]
    exact (List.getElem?_eq_some_iff.1 hposition').1
  have hcell := List.getElem?_eq_getElem hbound
  refine ⟨writes[position], by rw [callArgumentWrites, hwrites]; simp only [hcell], fun htrue => ?_⟩
  rw [htrue] at hcell
  rw [hflags position hcell] at hposition'
  exact (Option.some.inj hposition').symm

theorem argumentMutatedRoots_below (h : MarksBelow table above) {target : CallTarget}
    {argument : HirValueId × Nat} {roots' : List LocalId}
    (hroots' : argumentMutatedRoots environment facts above target argument = .ok roots') :
    ∃ roots, argumentMutatedRoots environment facts table target argument = .ok roots ∧
      roots ⊆ roots' := by
  rw [argumentMutatedRoots] at hroots'
  cases habove : callArgumentWrites environment above target argument.2 with
  | error e =>
      rw [habove] at hroots'
      cases hroots'
  | ok written' =>
      obtain ⟨written, hbelow, hwritten⟩ := callArgumentWrites_below h habove
      rw [argumentMutatedRoots, hbelow]
      cases written with
      | false => exact ⟨[], rfl, List.nil_subset _⟩
      | true =>
          rw [habove, hwritten rfl] at hroots'
          exact ⟨roots', hroots', List.Subset.refl _⟩

theorem callMutatedRoots_below (h : MarksBelow table above) {target : CallTarget}
    {args : List HirValueId} {roots' : List LocalId}
    (hroots' : callMutatedRoots environment facts above target args = .ok roots') :
    ∃ roots, callMutatedRoots environment facts table target args = .ok roots ∧ roots ⊆ roots' := by
  rw [callMutatedRoots] at hroots'
  cases hrun : args.zipIdx.mapM (argumentMutatedRoots environment facts above target) with
  | error e =>
      rw [hrun] at hroots'
      cases hroots'
  | ok answers' =>
      rw [hrun] at hroots'
      cases hroots'
      obtain ⟨answers, hanswers, hsub⟩ := mapM_flatten_mono
        (fun argument _ _ hargument => argumentMutatedRoots_below h hargument) hrun
      exact ⟨answers.flatten, by rw [callMutatedRoots, hanswers]; rfl, hsub⟩

theorem statementMutatedRoots_below (h : MarksBelow table above) {function : FunctionId}
    {statement : HirStatement} {roots' : List LocalId}
    (hroots' : statementMutatedRoots environment facts above function statement = .ok roots') :
    ∃ roots, statementMutatedRoots environment facts table function statement = .ok roots ∧
      roots ⊆ roots' := by
  rw [statementMutatedRoots] at hroots' ⊢
  cases hfact : facts.statementFacts statement.id with
  | none =>
      rw [hfact] at hroots'
      cases hroots'
  | some fact =>
      rw [hfact] at hroots'
      simp only at hroots' ⊢
      split at hroots'
      · exact ⟨roots', hroots', List.Subset.refl _⟩
      · exact callMutatedRoots_below h hroots'
      · exact ⟨roots', hroots', List.Subset.refl _⟩
      · exact ⟨roots', hroots', List.Subset.refl _⟩

theorem terminatorMutatedRoots_below (h : MarksBelow table above) {terminator : HirTerminator}
    {roots' : List LocalId}
    (hroots' : terminatorMutatedRoots environment facts above terminator = .ok roots') :
    ∃ roots, terminatorMutatedRoots environment facts table terminator = .ok roots ∧
      roots ⊆ roots' := by
  rw [terminatorMutatedRoots.eq_def] at hroots' ⊢
  split at hroots'
  · exact callMutatedRoots_below h hroots'
  · exact ⟨roots', hroots', List.Subset.refl _⟩
  · exact ⟨roots', hroots', List.Subset.refl _⟩

theorem blockMutatedRoots_below (h : MarksBelow table above) {function : FunctionId}
    {block : HirBlock} {roots' : List LocalId}
    (hroots' : blockMutatedRoots environment facts above function block = .ok roots') :
    ∃ roots, blockMutatedRoots environment facts table function block = .ok roots ∧
      roots ⊆ roots' := by
  rw [blockMutatedRoots] at hroots'
  split at hroots'
  · cases hroots'
  · next answers' hstatements' =>
      split at hroots'
      · cases hroots'
      · next last' hlast' =>
          cases hroots'
          obtain ⟨answers, hstatements, hsub⟩ := mapM_flatten_mono
            (fun statement _ _ hstatement => statementMutatedRoots_below h hstatement) hstatements'
          obtain ⟨last, hlast, hsub'⟩ := terminatorMutatedRoots_below h hlast'
          refine ⟨answers.flatten ++ last, by rw [blockMutatedRoots, hstatements]; simp only [hlast],
            ?_⟩
          exact List.append_subset.2 ⟨fun x hx => List.mem_append_left _ (hsub hx),
            fun x hx => List.mem_append_right _ (hsub' hx)⟩

end Mono

/-! ## One visit -/

section Visit

variable {hir : HirModule} {environment : CallEnvironment} {facts : BorrowFacts}
  {function : HirFunction} {table next : SummaryTable} {changed : Bool}

/-- The parts of a visit that succeeded. -/
theorem finalize_parts
    (h : finalizePublicCallSummaryEffects environment facts hir function table =
      .ok (next, changed)) :
    ∃ blocks roots summary, reachableBlocks hir function = .ok blocks ∧
      blocks.mapM (blockMutatedRoots environment facts table function.id) = .ok roots ∧
      table function.id = some summary ∧
      next = Function.update table function.id (some { summary with
        parameters := (markWrites (roots.flatten.filterMap (paramIndex function.params)) 0
          summary.parameters).1 }) ∧
      changed = (markWrites (roots.flatten.filterMap (paramIndex function.params)) 0
        summary.parameters).2 := by
  rw [finalizePublicCallSummaryEffects] at h
  split at h
  · cases h
  · next blocks hblocks =>
      split at h
      · cases h
      · next roots hroots =>
          split at h
          · cases h
          · next summary hsummary =>
              cases h
              exact ⟨blocks, roots, summary, hblocks, hroots, hsummary, rfl, rfl⟩

theorem marked_update {summary : PublicCallSummary} {positions : List Nat} {id : FunctionId}
    {position : Nat} (hsummary : table id = some summary) {other : FunctionId} :
    Marked (Function.update table id (some { summary with
        parameters := (markWrites positions 0 summary.parameters).1 })) other position ↔
      Marked table other position ∨
        other = id ∧ position ∈ positions ∧ position < summary.parameters.length := by
  by_cases heq : other = id
  · subst heq
    simp only [Marked, Function.update_self, Option.some.injEq, exists_and_left, exists_eq_left',
      markWrites_getElem?, Nat.zero_add, hsummary, true_and]
    by_cases hbound : position < summary.parameters.length
    · rw [List.getElem?_eq_getElem hbound]
      by_cases hin : position ∈ positions
      · simp [hin, hbound]
      · simp [hin]
    · rw [List.getElem?_eq_none (by omega)]
      simp [hbound]
  · simp [Marked, heq]

theorem finalize_below
    (h : finalizePublicCallSummaryEffects environment facts hir function table =
      .ok (next, changed)) : MarksBelow table next := by
  obtain ⟨blocks, roots, summary, -, -, hsummary, hnext, -⟩ := finalize_parts h
  subst hnext
  refine ⟨fun id => ?_, fun hmark => (marked_update hsummary).2 (.inl hmark)⟩
  by_cases heq : id = function.id
  · subst heq
    rw [Function.update_self, hsummary, Option.map_some, Option.map_some, clearMarks, clearMarks,
      markWrites_clear]
  · rw [Function.update_of_ne heq]

theorem finalize_unchanged
    (h : finalizePublicCallSummaryEffects environment facts hir function table =
      .ok (next, false)) : next = table := by
  obtain ⟨blocks, roots, summary, -, -, hsummary, hnext, hchanged⟩ := finalize_parts h
  rw [hnext, markWrites_unchanged hchanged.symm, ← hsummary, Function.update_eq_self]

/-- A visit with less marked succeeds too, and marks no more. -/
theorem finalize_mono {above above' : SummaryTable} (hbelow : MarksBelow table above)
    (h : finalizePublicCallSummaryEffects environment facts hir function above =
      .ok (above', changed)) :
    ∃ next changed', finalizePublicCallSummaryEffects environment facts hir function table =
      .ok (next, changed') ∧ MarksBelow next above' := by
  obtain ⟨blocks, roots', summary', hblocks, hroots', hsummary', hnext', -⟩ := finalize_parts h
  obtain ⟨roots, hroots, hsub⟩ := mapM_flatten_mono
    (fun block _ _ hblock => blockMutatedRoots_below hbelow hblock) hroots'
  obtain ⟨summary, hsummary, hclear⟩ : ∃ summary, table function.id = some summary ∧
      clearMarks summary = clearMarks summary' := by
    have hid := hbelow.same function.id
    rw [hsummary', Option.map_some] at hid
    exact Option.map_eq_some_iff.1 hid.symm
  have hrun : finalizePublicCallSummaryEffects environment facts hir function table = .ok
      (Function.update table function.id (some { summary with
        parameters := (markWrites (roots.flatten.filterMap (paramIndex function.params)) 0
          summary.parameters).1 }),
        (markWrites (roots.flatten.filterMap (paramIndex function.params)) 0
          summary.parameters).2) := by
    rw [finalizePublicCallSummaryEffects, hblocks]
    simp only [hroots, hsummary]
  refine ⟨_, _, hrun, fun id => ?_, fun {id position} hmark => ?_⟩
  · rw [(finalize_below hrun).same id, (finalize_below h).same id, hbelow.same id]
  · rw [hnext', marked_update hsummary']
    cases (marked_update hsummary).1 hmark with
    | inl hold => exact .inl (hbelow.marks hold)
    | inr hnew =>
        obtain ⟨heq, hposition, hbound⟩ := hnew
        obtain ⟨root, hroot, hindex⟩ := List.mem_filterMap.1 hposition
        refine .inr ⟨heq, List.mem_filterMap.2 ⟨root, hsub hroot, hindex⟩, ?_⟩
        rw [← clearMarks_length hclear]
        exact hbound

theorem finalize_advancing (hir : HirModule) (environment : CallEnvironment)
    (facts : BorrowFacts) :
    Advancing MarksBelow (finalizePublicCallSummaryEffects environment facts hir) where
  refl := MarksBelow.refl
  trans := MarksBelow.trans
  antisymm := MarksBelow.antisymm
  up := finalize_below
  unchanged := fun _ _ _ => finalize_unchanged
  mono := finalize_mono

/-! ## Errors -/

theorem callArgumentWrites_error {target : CallTarget} {position : Nat} {e : CallSummaryError}
    (h : callArgumentWrites environment table target position = .error e) :
    e ≠ .UnstableMutation := by
  rw [callArgumentWrites] at h
  split at h
  · cases h
    exact CallSummaryError.noConfusion
  · split at h
    · cases h
      exact CallSummaryError.noConfusion
    · cases h

theorem callMutatedRoots_error {target : CallTarget} {args : List HirValueId}
    {e : CallSummaryError} (h : callMutatedRoots environment facts table target args = .error e) :
    e ≠ .UnstableMutation := by
  rw [callMutatedRoots] at h
  cases hrun : args.zipIdx.mapM (argumentMutatedRoots environment facts table target) with
  | ok answers =>
      rw [hrun] at h
      cases h
  | error e' =>
      rw [hrun] at h
      cases h
      obtain ⟨argument, -, hargument⟩ := mapM_error hrun
      rw [argumentMutatedRoots] at hargument
      split at hargument
      · next hfail =>
          cases hargument
          exact callArgumentWrites_error hfail
      · cases hargument
      · split at hargument
        · cases hargument
          exact CallSummaryError.noConfusion
        · cases hargument

theorem mapMutatedRoots_error {op : HirMapOp} {receiver : HirValueId} {e : CallSummaryError}
    (h : mapMutatedRoots facts op receiver = .error e) : e ≠ .UnstableMutation := by
  rw [mapMutatedRoots] at h
  split at h
  · split at h
    · cases h
      exact CallSummaryError.noConfusion
    · cases h
  · cases h

theorem blockMutatedRoots_error {id : FunctionId} {block : HirBlock} {e : CallSummaryError}
    (h : blockMutatedRoots environment facts table id block = .error e) :
    e ≠ .UnstableMutation := by
  rw [blockMutatedRoots] at h
  split at h
  · next hfail =>
      cases h
      obtain ⟨statement, -, hstatement⟩ := mapM_error hfail
      rw [statementMutatedRoots] at hstatement
      split at hstatement
      · cases hstatement
        exact CallSummaryError.noConfusion
      · split at hstatement
        · cases hstatement
        · exact callMutatedRoots_error hstatement
        · exact mapMutatedRoots_error hstatement
        · cases hstatement
  · split at h
    · next hfail =>
        cases h
        rw [terminatorMutatedRoots.eq_def] at hfail
        split at hfail
        · exact callMutatedRoots_error hfail
        · exact mapMutatedRoots_error hfail
        · cases hfail
    · cases h

theorem finalize_error {e : CallSummaryError}
    (h : finalizePublicCallSummaryEffects environment facts hir function table = .error e) :
    e ≠ .UnstableMutation := by
  rw [finalizePublicCallSummaryEffects] at h
  split at h
  · next hfail =>
      cases h
      rw [reachableBlocks] at hfail
      split at hfail
      · cases hfail
        exact CallSummaryError.noConfusion
      · split at hfail
        · cases hfail
          exact CallSummaryError.noConfusion
        · cases hfail
  · split at h
    · next hfail =>
        cases h
        obtain ⟨block, -, hblock⟩ := mapM_error hfail
        exact blockMutatedRoots_error hblock
    · split at h
      · cases h
        exact CallSummaryError.noConfusion
      · cases h

end Visit

/-! ## Passes -/

section Passes

variable {hir : HirModule} {environment : CallEnvironment} {facts : BorrowFacts}

/-- The parameters of the module's functions that are not marked. -/
def unwrittenParameters (hir : HirModule) (table : SummaryTable) : Nat :=
  (hir.functions.map fun function =>
    (table function.id).elim 0 fun summary => unwritten summary.parameters).sum

theorem finalize_unwritten {function : HirFunction} (hfunction : function ∈ hir.functions)
    {table next : SummaryTable} {changed : Bool}
    (h : finalizePublicCallSummaryEffects environment facts hir function table =
      .ok (next, changed)) :
    unwrittenParameters hir next ≤ unwrittenParameters hir table ∧
      (changed = true → unwrittenParameters hir next < unwrittenParameters hir table) := by
  obtain ⟨blocks, roots, summary, -, -, hsummary, hnext, hchanged⟩ := finalize_parts h
  obtain ⟨hle, hlt⟩ := markWrites_unwritten (roots.flatten.filterMap (paramIndex function.params))
    summary.parameters 0
  have hrow : ∀ other : HirFunction,
      ((next other.id).elim 0 fun summary => unwritten summary.parameters) ≤
        (table other.id).elim 0 fun summary => unwritten summary.parameters := by
    intro other
    rw [hnext]
    by_cases heq : other.id = function.id
    · rw [heq, Function.update_self, hsummary]
      exact hle
    · rw [Function.update_of_ne heq]
  refine ⟨List.sum_le_sum fun other _ => hrow other, fun htrue => ?_⟩
  refine List.sum_lt_sum _ _ (fun other _ => hrow other) ⟨function, hfunction, ?_⟩
  rw [hnext, Function.update_self, hsummary]
  rw [hchanged] at htrue
  exact hlt htrue

theorem finalizePasses_ne_unstable {table : SummaryTable} {fuel : Nat}
    (hfuel : unwrittenParameters hir table < fuel) :
    rounds (inPlace (finalizePublicCallSummaryEffects environment facts hir) hir.functions)
      .UnstableMutation fuel table ≠ .error .UnstableMutation := by
  intro hrun
  obtain ⟨m, last, -, hfail⟩ := rounds_error
    (P := fun n state => unwrittenParameters hir state ≤ n)
    (fun n state next hstate hround => by
      have hmeasure := inPlace_measure (P := fun _ => True)
        (fun function hfunction a b c _ hvisit => ⟨trivial, finalize_unwritten hfunction hvisit⟩)
        trivial hround
      have hlt := hmeasure.2 rfl
      exact ⟨n - 1, by omega, by omega⟩)
    (Nat.le_refl _) hfuel hrun
  obtain ⟨function, -, visited, -, hvisit⟩ := inPlace_error (P := fun _ => True)
    (fun _ _ _ _ _ _ _ => trivial) trivial hfail
  exact finalize_error hvisit rfl

end Passes

/-! ## The parameters that a run marks -/

/-- The block mutates the root itself, or passes it to a written parameter of a function outside
the module. -/
def DirectlyMutates (environment : CallEnvironment) (facts : BorrowFacts) (block : HirBlock)
    (root : LocalId) : Prop :=
  BlockMutates environment facts (fun _ => none) block root

/-- The parameter is a root of a direct mutation, or of an argument that is passed to such a
parameter of a function of the module. -/
inductive MutatedParameter (hir : HirModule) (environment : CallEnvironment)
    (facts : BorrowFacts) : FunctionId → Nat → Prop
  | direct {function : HirFunction} {blocks : List HirBlock} {block : HirBlock} {root : LocalId}
      {position : Nat} : function ∈ hir.functions → reachableBlocks hir function = .ok blocks →
      block ∈ blocks → DirectlyMutates environment facts block root →
      paramIndex function.params root = some position →
      MutatedParameter hir environment facts function.id position
  | passed {function : HirFunction} {blocks : List HirBlock} {block : HirBlock}
      {callee : FunctionId} {args : List HirValueId} {index : Nat} {argument : HirValueId}
      {root : LocalId} {position : Nat} : function ∈ hir.functions →
      reachableBlocks hir function = .ok blocks → block ∈ blocks →
      CallSite block (.Local callee) args → args[index]? = some argument →
      MutatedParameter hir environment facts callee index → IsRoot facts argument root →
      paramIndex function.params root = some position →
      MutatedParameter hir environment facts function.id position

section Marks

variable {hir : HirModule} {environment : CallEnvironment} {facts : BorrowFacts}
  {table : SummaryTable} {root : LocalId}

theorem writesArgument_local {callee : FunctionId} {position : Nat} :
    WritesArgument environment table (.Local callee) position ↔ Marked table callee position := by
  rw [WritesArgument, Marked]
  constructor
  · intro h
    obtain ⟨writes, hwrites, hposition⟩ := h
    obtain ⟨summary, hsummary, heq⟩ := Option.map_eq_some_iff.1 hwrites
    rw [← heq, List.getElem?_map, Option.map_eq_some_iff] at hposition
    obtain ⟨parameter, hparameter, hmark⟩ := hposition
    exact ⟨summary, parameter, hsummary, hparameter, of_decide_eq_true hmark⟩
  · intro h
    obtain ⟨summary, parameter, hsummary, hparameter, hmark⟩ := h
    refine ⟨summary.parameters.map fun parameter => decide (parameter.mutation = .Writes), ?_, ?_⟩
    · rw [parameterWrites, hsummary]
      rfl
    · rw [List.getElem?_map, hparameter, Option.map_some, hmark]
      rfl

/-- What a block mutates, apart from what it passes to the functions of the module. -/
theorem blockMutates_iff {block : HirBlock} :
    BlockMutates environment facts table block root ↔
      DirectlyMutates environment facts block root ∨
        ∃ callee args index argument, CallSite block (.Local callee) args ∧
          args[index]? = some argument ∧ Marked table callee index ∧
          IsRoot facts argument root := by
  constructor
  · rintro (hwrite | hmap | ⟨target, args, index, argument, hsite, hargument, hwrites, hroot⟩)
    · exact .inl (.inl hwrite)
    · exact .inl (.inr (.inl hmap))
    · cases target with
      | Local callee =>
          exact .inr ⟨callee, args, index, argument, hsite, hargument,
            writesArgument_local.1 hwrites, hroot⟩
      | CrossModule _ =>
          exact .inl (.inr (.inr ⟨_, args, index, argument, hsite, hargument, hwrites, hroot⟩))
      | ModulePrivate _ =>
          exact .inl (.inr (.inr ⟨_, args, index, argument, hsite, hargument, hwrites, hroot⟩))
      | Generated _ =>
          exact .inl (.inr (.inr ⟨_, args, index, argument, hsite, hargument, hwrites, hroot⟩))
      | External _ =>
          exact .inl (.inr (.inr ⟨_, args, index, argument, hsite, hargument, hwrites, hroot⟩))
  · rintro ((hwrite | hmap | ⟨target, args, index, argument, hsite, hargument, hwrites, hroot⟩) |
      ⟨callee, args, index, argument, hsite, hargument, hmark, hroot⟩)
    · exact .inl hwrite
    · exact .inr (.inl hmap)
    · refine .inr (.inr ⟨target, args, index, argument, hsite, hargument, ?_, hroot⟩)
      cases target with
      | Local callee =>
          obtain ⟨summary, parameter, hnone, -⟩ := writesArgument_local.1 hwrites
          cases hnone
      | CrossModule _ => exact hwrites
      | ModulePrivate _ => exact hwrites
      | Generated _ => exact hwrites
      | External _ => exact hwrites
    · exact .inr (.inr ⟨.Local callee, args, index, argument, hsite, hargument,
        writesArgument_local.2 hmark, hroot⟩)

theorem finalize_sound {function : HirFunction} (hfunction : function ∈ hir.functions)
    {next : SummaryTable} {changed : Bool}
    (hmarked : ∀ id position, Marked table id position →
      MutatedParameter hir environment facts id position)
    (h : finalizePublicCallSummaryEffects environment facts hir function table =
      .ok (next, changed)) (id : FunctionId) (position : Nat) (hmark : Marked next id position) :
    MutatedParameter hir environment facts id position := by
  obtain ⟨blocks, roots, summary, hblocks, hroots, hsummary, hnext, -⟩ := finalize_parts h
  rw [hnext, marked_update hsummary] at hmark
  cases hmark with
  | inl hold => exact hmarked id position hold
  | inr hnew =>
      obtain ⟨heq, hposition, -⟩ := hnew
      obtain ⟨root, hroot, hindex⟩ := List.mem_filterMap.1 hposition
      obtain ⟨block, hblock, hmutates⟩ :=
        (mem_mapM_flatten (fun _ _ _ hanswer => mem_blockMutatedRoots hanswer) hroots).1 hroot
      rw [heq]
      cases blockMutates_iff.1 hmutates with
      | inl hdirect => exact .direct hfunction hblocks hblock hdirect hindex
      | inr hcall =>
          obtain ⟨callee, args, index, argument, hsite, hargument, hmark, hroot⟩ := hcall
          exact .passed hfunction hblocks hblock hsite hargument (hmarked callee index hmark) hroot
            hindex

/-- Where no visit changes the table, every mutated parameter is marked. -/
theorem marked_of_mutated
    (hfixed : ∀ function ∈ hir.functions,
      finalizePublicCallSummaryEffects environment facts hir function table = .ok (table, false))
    (hposition : ∀ function ∈ hir.functions, ∀ position < function.params.length,
      HasParameter table function.id position)
    {id : FunctionId} {position : Nat}
    (h : MutatedParameter hir environment facts id position) : Marked table id position := by
  -- what the visit of a function finds mutated is marked, since the visit changes nothing
  have hvisit : ∀ function ∈ hir.functions, ∀ blocks, reachableBlocks hir function = .ok blocks →
      ∀ block ∈ blocks, ∀ root, BlockMutates environment facts table block root →
      ∀ position, paramIndex function.params root = some position →
      Marked table function.id position := by
    intro function hfunction blocks hblocks block hblock root hmutates position hindex
    obtain ⟨blocks', roots, summary, hblocks', hroots, hsummary, hnext, -⟩ :=
      finalize_parts (hfixed function hfunction)
    rw [hblocks] at hblocks'
    cases hblocks'
    have hroot := (mem_mapM_flatten (fun _ _ _ hanswer => mem_blockMutatedRoots hanswer)
      hroots).2 ⟨block, hblock, hmutates⟩
    have hbound : position < function.params.length := by
      rw [paramIndex, List.idxOf?_eq_some_iff] at hindex
      obtain ⟨hlt, -⟩ := hindex
      exact hlt
    obtain ⟨summary', hsummary', hlt⟩ := hposition function hfunction position hbound
    rw [hsummary] at hsummary'
    cases hsummary'
    rw [hnext]
    exact (marked_update hsummary).2
      (.inr ⟨rfl, List.mem_filterMap.2 ⟨root, hroot, hindex⟩, hlt⟩)
  induction h with
  | direct hfunction hblocks hblock hdirect hindex =>
      exact hvisit _ hfunction _ hblocks _ hblock _ (blockMutates_iff.2 (.inl hdirect)) _ hindex
  | passed hfunction hblocks hblock hsite hargument _ hroot hindex ih =>
      exact hvisit _ hfunction _ hblocks _ hblock _
        (blockMutates_iff.2 (.inr ⟨_, _, _, _, hsite, hargument, ih, hroot⟩)) _ hindex

/-- What a finished run leaves: the start with the mutated parameters marked. -/
theorem finalizePasses_marks {fuel : Nat} {final : SummaryTable}
    (hclear : ∀ id position, ¬ Marked table id position)
    (hposition : ∀ function ∈ hir.functions, ∀ position < function.params.length,
      HasParameter table function.id position)
    (hrun : rounds (inPlace (finalizePublicCallSummaryEffects environment facts hir)
      hir.functions) .UnstableMutation fuel table = .ok final) :
    SameButMarks table final ∧ ∀ id position,
      Marked final id position ↔ MutatedParameter hir environment facts id position := by
  have hadvance := finalize_advancing hir environment facts
  obtain ⟨hbelow, hfixed⟩ := hadvance.rounds_fixed hrun
  have hsound : ∀ id position, Marked final id position →
      MutatedParameter hir environment facts id position := by
    obtain ⟨last, hlast, hround⟩ := rounds_settled
      (P := fun state => ∀ id position, Marked state id position →
        MutatedParameter hir environment facts id position)
      (fun state next changed hstate hround => inPlace_induction
        (fun function hfunction a b c ha hvisit => finalize_sound hfunction ha hvisit) hstate
        hround)
      (fun id position hmark => absurd hmark (hclear id position)) hrun
    exact inPlace_induction
      (fun function hfunction a b c ha hvisit => finalize_sound hfunction ha hvisit) hlast hround
  refine ⟨hbelow.same, fun id position => ⟨hsound id position, marked_of_mutated hfixed ?_⟩⟩
  intro function hfunction position hlt
  obtain ⟨summary, hsummary, hlength⟩ := hposition function hfunction position hlt
  obtain ⟨summary', hsummary', hclear'⟩ := hbelow.same.some hsummary
  refine ⟨summary', hsummary', ?_⟩
  rw [clearMarks_length hclear']
  exact hlength

end Marks

end Moth.Borrow
