import Moth.Wasm.IntegerOperation

/-!
# From lowering to emitted code

What a successful emission says of an operation, what a successful lowering
allocates, and the run of the statements that lowering leaves behind.
-/

namespace Moth.Wasm

open Moth.Lexical Moth.Datatypes Moth.Hir Moth.Lib Moth.Lib.Wasm

section Emission

variable {later : WasmFunctionLoweringContext}

theorem WasmLirLocalId.index_inj {a b : WasmLirLocalId} : a.index = b.index ↔ a = b := by
  cases a
  cases b
  simp

/-- The operands of an operation, by position. -/
def operandsAt : WasmNumericOperationOperands WasmLirLocalId → WasmNumericOperationOperands Nat
  | .Unary operand => .Unary operand.index
  | .Binary left right => .Binary left.index right.index

def scratchAt (scratch : WasmIntegerScratch WasmLirLocalId) : WasmIntegerScratch Nat :=
  ⟨scratch.product.map (·.index), scratch.power.map fun power =>
    ⟨power.factor.index, power.exponent.index⟩⟩

theorem aliasesOperand_operandsAt (destination : WasmLirLocalId)
    (operands : WasmNumericOperationOperands WasmLirLocalId) :
    aliasesOperand destination.index (operandsAt operands) =
      aliasesOperand destination operands := by
  cases operands <;> simp only [aliasesOperand, operandsAt, WasmLirLocalId.index_inj]

theorem localIndex_eq {localId : WasmLirLocalId} {index : Nat}
    (h : localIndex localId (buildLocalLayout later) = .ok index) : index = localId.index := by
  simp only [localIndex, buildLocalLayout] at h
  split at h
  · next i hi =>
      split at hi
      · obtain rfl := Option.some.inj hi
        exact (Except.ok.inj h).symm
      · cases hi
  · cases h

theorem operandIndices_eq {operands : WasmNumericOperationOperands WasmLirLocalId}
    {indices : WasmNumericOperationOperands Nat}
    (h : operandIndices operands (buildLocalLayout later) = .ok indices) :
    indices = operandsAt operands := by
  cases operands with
  | Unary operand =>
      obtain ⟨index, hindex, h⟩ := bind_eq_ok.1 h
      rw [localIndex_eq hindex] at h
      exact (Except.ok.inj h).symm
  | Binary left right =>
      obtain ⟨l, hl, h⟩ := bind_eq_ok.1 h
      obtain ⟨r, hr, h⟩ := bind_eq_ok.1 h
      rw [localIndex_eq hl, localIndex_eq hr] at h
      exact (Except.ok.inj h).symm

theorem optionalIndex_eq {localId : Option WasmLirLocalId} {index : Option Nat}
    (h : optionalIndex localId (buildLocalLayout later) = .ok index) :
    index = localId.map (·.index) := by
  cases localId with
  | none => exact (Except.ok.inj h).symm
  | some localId =>
      obtain ⟨i, hi, h⟩ := bind_eq_ok.1 h
      rw [localIndex_eq hi] at h
      exact (Except.ok.inj h).symm

theorem scratchIndices_eq {scratch : WasmIntegerScratch WasmLirLocalId}
    {indices : WasmIntegerScratch Nat}
    (h : scratchIndices scratch (buildLocalLayout later) = .ok indices) :
    indices = scratchAt scratch := by
  obtain ⟨product, power⟩ := scratch
  obtain ⟨p, hp, h⟩ := bind_eq_ok.1 h
  rw [optionalIndex_eq hp] at h
  cases power with
  | none => exact (Except.ok.inj h).symm
  | some power =>
      obtain ⟨f, hf, h⟩ := bind_eq_ok.1 h
      obtain ⟨e, he, h⟩ := bind_eq_ok.1 h
      rw [localIndex_eq hf, localIndex_eq he] at h
      exact (Except.ok.inj h).symm

theorem aliasesOperand_of_check {operation : WasmCheckedIntegerOperation}
    (h : checkOperationAliases operation = .ok ()) (hmode : operation.checkMode = .Runtime) :
    aliasesOperand operation.dst operation.operands = false := by
  rw [checkOperationAliases] at h
  split at h
  · cases h
  · next halias => exact Bool.eq_false_iff.2 halias

theorem product_ne_of_check {operation : WasmCheckedIntegerOperation} {product : WasmLirLocalId}
    (h : checkProductScratch operation (buildLocalLayout later) = .ok ())
    (hproduct : operation.scratch.product = some product) : product ≠ operation.dst := by
  simp only [checkProductScratch, hproduct] at h
  split at h
  · obtain ⟨_, _, h⟩ := bind_eq_ok.1 h
    split at h
    · cases h
    · next hne => exact fun heq => hne (.inl heq)
  · cases h

theorem powerScratch_of_check {operation : WasmCheckedIntegerOperation}
    {power : WasmIntegerPowerScratch WasmLirLocalId}
    (h : checkPowerScratch operation (buildLocalLayout later) = .ok ())
    (hpower : operation.scratch.power = some power) :
    ¬(power.factor = power.exponent ∨ power.factor = operation.dst ∨
      power.exponent = operation.dst ∨ aliasesOperand power.factor operation.operands ∨
      aliasesOperand power.exponent operation.operands ∨
      operation.scratch.product = some power.factor ∨
      operation.scratch.product = some power.exponent) := by
  simp only [checkPowerScratch, hpower] at h
  split at h
  · cases h
  split at h
  · cases h
  obtain ⟨_, _, h⟩ := bind_eq_ok.1 h
  obtain ⟨_, _, h⟩ := bind_eq_ok.1 h
  split at h
  · cases h
  · next hapart => exact hapart

theorem locals_distinct {operation : WasmCheckedIntegerOperation}
    (halias : checkOperationAliases operation = .ok ())
    (hproduct : checkProductScratch operation (buildLocalLayout later) = .ok ())
    (hpower : checkPowerScratch operation (buildLocalLayout later) = .ok ())
    (hmode : operation.checkMode = .Runtime) :
    LocalsDistinct operation.dst.index (operandsAt operation.operands)
      (scratchAt operation.scratch) := by
  refine ⟨?_, ?_⟩
  · rw [aliasesOperand_operandsAt]
    exact aliasesOperand_of_check halias hmode
  · intro power hsome
    obtain ⟨scratch, hscratch, rfl⟩ := Option.map_eq_some_iff.1 hsome
    have hapart := powerScratch_of_check hpower hscratch
    simp only [not_or] at hapart
    obtain ⟨hne, hfactor, hexponent, hoperand, _, hproductFactor, hproductExponent⟩ := hapart
    refine ⟨⟨?_, ?_, ?_, ?_, ?_, ?_⟩, ?_⟩
    · exact fun h => hne (WasmLirLocalId.index_inj.1 h)
    · exact fun h => hfactor (WasmLirLocalId.index_inj.1 h)
    · exact fun h => hexponent (WasmLirLocalId.index_inj.1 h)
    · simpa [scratchAt, WasmLirLocalId.index_inj] using hproductFactor
    · simpa [scratchAt, WasmLirLocalId.index_inj] using hproductExponent
    · intro hmem
      obtain ⟨product, hsome, hindex⟩ := Option.map_eq_some_iff.1 (Option.mem_toList.1 hmem)
      exact product_ne_of_check hproduct hsome (WasmLirLocalId.index_inj.1 hindex)
    · rw [aliasesOperand_operandsAt]
      exact Bool.eq_false_iff.2 hoperand

variable {ι : Type}

/-- What a successful emission says. -/
theorem emitCheckedIntegerOperation_code {operation : WasmCheckedIntegerOperation}
    {code : List (Instr ι)}
    (h : emitCheckedIntegerOperation operation (buildLocalLayout later) = .ok code) :
    operandShapeOk operation.operator operation.operands ∧
    (operation.checkMode = .Runtime → LocalsDistinct operation.dst.index
      (operandsAt operation.operands) (scratchAt operation.scratch)) ∧
    integerOperationCode operation.operator operation.kind operation.checkMode
      operation.dst.index (operandsAt operation.operands) (scratchAt operation.scratch) =
      .ok code := by
  obtain ⟨_, _, h⟩ := bind_eq_ok.1 h
  split at h
  · cases h
  next hshape =>
    obtain ⟨_, _, h⟩ := bind_eq_ok.1 h
    obtain ⟨_, halias, h⟩ := bind_eq_ok.1 h
    obtain ⟨_, hproduct, h⟩ := bind_eq_ok.1 h
    obtain ⟨_, hpower, h⟩ := bind_eq_ok.1 h
    obtain ⟨destination, hdestination, h⟩ := bind_eq_ok.1 h
    obtain ⟨operands, hoperands, h⟩ := bind_eq_ok.1 h
    obtain ⟨scratch, hscratch, h⟩ := bind_eq_ok.1 h
    rw [localIndex_eq hdestination, operandIndices_eq hoperands, scratchIndices_eq hscratch] at h
    exact ⟨by simpa using hshape, locals_distinct halias hproduct hpower, h⟩

end Emission

section Lowering

variable {context next : WasmFunctionLoweringContext} {op : HirNumericOp} {provenSafe : Bool}
  {operands : WasmNumericOperationOperands WasmLirLocalId} {result : LocalId}
  {statements : List WasmIntegerStmt}

theorem allocIntegerScratch_fresh (context : WasmFunctionLoweringContext)
    (operator : NumericOperator) (kind : WasmIntegerOperationKind) (checkMode : IntegerCheckMode)
    (destination x : Nat)
    (hx : x ∈ operationWrites destination
      (scratchAt (allocIntegerScratch context operator kind checkMode).1)) :
    x = destination ∨ context.localTypes.length ≤ x := by
  simp only [allocIntegerScratch] at hx
  split at hx <;> split at hx <;>
    simp [operationWrites, powerWrites, scratchAt,
      WasmFunctionLoweringContext.allocTemp] at hx <;> omega

/-- What a successful lowering leaves behind. -/
structure LoweredOperation (context : WasmFunctionLoweringContext) (op : HirNumericOp)
    (provenSafe : Bool) (operands : WasmNumericOperationOperands WasmLirLocalId)
    (destination : WasmLirLocalId) (kind : WasmIntegerOperationKind)
    (statements : List WasmIntegerStmt) (operation : WasmCheckedIntegerOperation) : Prop where
  shape : operandShapeOk op.operator operands
  operator : operation.operator = op.operator
  kind : operation.kind = kind
  checkMode : operation.checkMode = if provenSafe then .ProvenSafe else .Runtime
  operands : operation.operands = operands
  statements : statements = if operation.dst ≠ destination then
      [.CheckedIntegerOp operation, .Copy destination operation.dst]
    else [.CheckedIntegerOp operation]
  destination_lt : destination.index < context.localTypes.length
  dst : operation.dst = destination ∨ context.localTypes.length ≤ operation.dst.index
  writes : ∀ x ∈ operationWrites operation.dst.index (scratchAt operation.scratch),
    x = operation.dst.index ∨ context.localTypes.length ≤ x

theorem chosen_fresh (context : WasmFunctionLoweringContext) (destination : WasmLirLocalId)
    (ty : WasmAbiType) (p : Prop) [Decidable p] :
    (if p then context.allocTemp ty else (destination, context)).1 = destination ∨
      context.localTypes.length ≤
        (if p then context.allocTemp ty else (destination, context)).1.index := by
  split
  · exact .inr (Nat.le_refl _)
  · exact .inl rfl

theorem chosen_extends (context : WasmFunctionLoweringContext) (destination : WasmLirLocalId)
    (ty : WasmAbiType) (p : Prop) [Decidable p] :
    context.localTypes <+:
      (if p then context.allocTemp ty else (destination, context)).2.localTypes := by
  split
  · exact WasmFunctionLoweringContext.extends_allocTemp context ty
  · exact List.prefix_refl _

theorem lowerCheckedIntegerOperation_lowered {destination : WasmLirLocalId}
    {kind : WasmIntegerOperationKind}
    (h : lowerCheckedIntegerOperation context op provenSafe operands result =
      .ok (statements, next))
    (hkind : integerOperationKind op.domain = .ok kind)
    (hresult : context.localMap result = some destination) :
    ∃ operation,
      LoweredOperation context op provenSafe operands destination kind statements operation := by
  rw [lowerCheckedIntegerOperation, hkind, ok_bind] at h
  simp only [hresult] at h
  split at h
  · cases h
  next hshape =>
  split at h
  · cases h
  next hty =>
    have hlt : destination.index < context.localTypes.length :=
      (List.getElem?_eq_some_iff.1 (not_not.1 hty)).1
    obtain ⟨rfl, rfl⟩ := Prod.mk.inj (Except.ok.inj h)
    refine ⟨⟨_, _, _, _, _, _⟩, by simpa using hshape, rfl, rfl, rfl, rfl, rfl, hlt, ?_, ?_⟩
    · exact chosen_fresh context destination _ _
    · intro x hx
      rcases allocIntegerScratch_fresh _ _ _ _ _ x hx with h | h
      · exact .inl h
      · exact .inr (Nat.le_trans (chosen_extends context destination _ _).length_le h)

end Lowering

section Execution

variable {ι σ : Type} {meaning : ι → (Nat → Value) → σ → HostResult σ} {fuel : Nat}
  {context later : WasmFunctionLoweringContext} {op : HirNumericOp} {provenSafe : Bool}
  {operands : WasmNumericOperationOperands WasmLirLocalId} {destination : WasmLirLocalId}
  {kind : WasmIntegerOperationKind} {statements : List WasmIntegerStmt}
  {operation : WasmCheckedIntegerOperation} {code : List (Instr ι)} {s : State σ}

variable (meaning fuel) in
/-- The code traps for no result, and otherwise leaves the result in the
destination and every other local of the function as it was. -/
def Returns (code : List (Instr ι)) (s : State σ) (context : WasmFunctionLoweringContext)
    (destination : WasmLirLocalId) (carrier : Carrier) (result : Option Int) : Prop :=
  match result with
  | none => exec meaning fuel code s = .trap
  | some v => ∃ s', exec meaning fuel code s = .next s' ∧
      s'.locals destination.index = encode carrier v ∧
      s'.stack = s.stack ∧ s'.store = s.store ∧
      ∀ x < context.localTypes.length, x ≠ destination.index → s'.locals x = s.locals x

theorem emitIntegerStmts_cons {first : WasmIntegerStmt} {rest : List WasmIntegerStmt}
    {layout : LirBodyEmitContext} (h : emitIntegerStmts (first :: rest) layout = .ok code) :
    ∃ firstCode restCode, emitIntegerStmt first layout = .ok firstCode ∧
      emitIntegerStmts rest layout = .ok restCode ∧ code = firstCode ++ restCode := by
  obtain ⟨firstCode, hfirst, h⟩ := bind_eq_ok.1 h
  obtain ⟨restCode, hrest, h⟩ := bind_eq_ok.1 h
  exact ⟨firstCode, restCode, hfirst, hrest, (Except.ok.inj h).symm⟩

theorem emit_copy {dst src : WasmLirLocalId}
    (h : emitIntegerStmt (.Copy dst src) (buildLocalLayout later) = .ok code) :
    code = [.localGet src.index, .localSet dst.index] := by
  obtain ⟨i, hi, h⟩ := bind_eq_ok.1 h
  obtain ⟨j, hj, h⟩ := bind_eq_ok.1 h
  rw [localIndex_eq hi, localIndex_eq hj] at h
  exact (Except.ok.inj h).symm

/-- What the operation delivers, the lowered statements return. -/
theorem lowered_returns {result : Option Int}
    (hlowered : LoweredOperation context op provenSafe operands destination kind statements
      operation)
    (hemit : emitIntegerStmts statements (buildLocalLayout later) = .ok code)
    (hdelivers : ∀ code : List (Instr ι),
      emitCheckedIntegerOperation operation (buildLocalLayout later) = .ok code →
      Delivers meaning fuel code s operation.dst.index
        (operationWrites operation.dst.index (scratchAt operation.scratch)) kind.carrier result) :
    Returns meaning fuel code s context destination kind.carrier result := by
  have hkept : ∀ x < context.localTypes.length, x ≠ operation.dst.index →
      x ∉ operationWrites operation.dst.index (scratchAt operation.scratch) := by
    intro x hx hne hmem
    rcases hlowered.writes x hmem with h | h
    · exact hne h
    · omega
  rw [hlowered.statements] at hemit
  split at hemit
  · next hne =>
      obtain ⟨first, rest, hfirst, hrest, rfl⟩ := emitIntegerStmts_cons hemit
      obtain ⟨copy, none, hcopy, hnone, rfl⟩ := emitIntegerStmts_cons hrest
      obtain rfl := Except.ok.inj hnone
      have hfresh : context.localTypes.length ≤ operation.dst.index :=
        hlowered.dst.resolve_left hne
      have hrun := hdelivers first hfirst
      rw [emit_copy hcopy]
      cases result with
      | none =>
          rw [Returns, exec_append, hrun]
          rfl
      | some v =>
          obtain ⟨t, hrun, hvalue, hagrees⟩ := hrun
          refine ⟨t.setLocal destination.index (encode kind.carrier v), ?_,
            State.setLocal_self _ _ _, hagrees.stack, hagrees.store, ?_⟩
          · simp [hrun, hvalue]
          · intro x hx hxne
            rw [State.setLocal_of_ne _ _ hxne]
            exact hagrees.locals x (hkept x hx (by omega))
  · next heq =>
      obtain ⟨first, rest, hfirst, hrest, rfl⟩ := emitIntegerStmts_cons hemit
      obtain rfl := Except.ok.inj hrest
      rw [not_not] at heq
      have hrun := hdelivers first hfirst
      rw [List.append_nil]
      cases result with
      | none => exact hrun
      | some v =>
          obtain ⟨t, hrun, hvalue, hagrees⟩ := hrun
          rw [heq] at hvalue
          refine ⟨t, hrun, hvalue, hagrees.stack, hagrees.store, ?_⟩
          intro x hx hne
          exact hagrees.locals x (hkept x hx (by rwa [heq]))

theorem runtime_returns {values : WasmNumericOperationOperands Int}
    (hlowered : LoweredOperation context op false operands destination kind statements operation)
    (hemit : emitIntegerStmts statements (buildLocalLayout later) = .ok code)
    (hfuel : kind.carrier.bits < fuel) (hvalues : OperandsHold kind values)
    (hoperands : OperandsAt kind s (operandsAt operands) values) :
    Returns meaning fuel code s context destination kind.carrier
      (operationResult kind op.operator values) := by
  refine lowered_returns hlowered hemit ?_
  intro code hcode
  obtain ⟨_, hdistinct, hcode⟩ := emitCheckedIntegerOperation_code hcode
  rw [hlowered.operator, hlowered.kind, hlowered.checkMode, hlowered.operands] at hcode
  rw [hlowered.operands] at hdistinct
  exact runtime_delivers hcode (hdistinct hlowered.checkMode) hfuel hvalues hoperands

theorem provenSafe_returns {values : WasmNumericOperationOperands Int} {v : Int}
    (hlowered : LoweredOperation context op true operands destination kind statements operation)
    (hemit : emitIntegerStmts statements (buildLocalLayout later) = .ok code)
    (hvalues : OperandsHold kind values)
    (hoperands : OperandsAt kind s (operandsAt operands) values)
    (hresult : operationResult kind op.operator values = some v) :
    Returns meaning fuel code s context destination kind.carrier (some v) := by
  refine lowered_returns hlowered hemit ?_
  intro code hcode
  obtain ⟨_, _, hcode⟩ := emitCheckedIntegerOperation_code hcode
  rw [hlowered.operator, hlowered.kind, hlowered.checkMode, hlowered.operands] at hcode
  refine (provenSafe_delivers hcode hvalues hoperands hresult).mono ?_
  intro x hx
  rw [List.mem_singleton.1 hx, operationWrites]
  split <;> exact List.mem_cons_self

end Execution

end Moth.Wasm
