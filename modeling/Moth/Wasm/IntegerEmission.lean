import Moth.Wasm.IntegerLowering

/-!
# A lowered operation has code

The locals that lowering allocates are the ones emission asks for, so between a
lowering over well-typed locals and its code only the operation itself can
stand: emission has no sequence for the negation of an unsigned value, and no
proven-safe one for a power.
-/

namespace Moth.Wasm

open Moth.Lexical Moth.Datatypes Moth.Hir Moth.Lib Moth.Lib.Wasm

/-- The operations that emission has a sequence for. -/
def HasCode (operator : NumericOperator) (kind : WasmIntegerOperationKind)
    (checkMode : IntegerCheckMode) : Prop :=
  (operator = .Negate → kind.isSigned) ∧ (operator = .Power → checkMode = .Runtime)

section Sequences

variable {ι : Type} {operator : NumericOperator} {kind : WasmIntegerOperationKind}
  {checkMode : IntegerCheckMode} {destination : Nat}

/-- Negation is emitted for a signed domain, in either mode. -/
theorem emitNegation_ok (operand : Nat) (h : kind.isSigned) :
    (∃ code : List (Instr ι), emitCheckedNegation destination operand kind = .ok code) ∧
    ∃ code : List (Instr ι), emitProvenSafeNegation destination operand kind = .ok code := by
  cases kind <;> first
    | exact ⟨⟨_, rfl⟩, _, rfl⟩
    | cases h

theorem emitCheckedMultiplyInto_ok (destination left right : Nat) {product : Option Nat}
    (h : product.isSome = kind.is32Bit) :
    ∃ code : List (Instr ι),
      emitCheckedMultiplyInto destination left right kind product = .ok code := by
  cases kind <;> cases product <;> first
    | exact ⟨_, rfl⟩
    | cases h

theorem emitCheckedPower_ok (base exponent : Nat) {product : Option Nat}
    (scratch : WasmIntegerPowerScratch Nat) (h : product.isSome = kind.is32Bit) :
    ∃ code : List (Instr ι),
      emitCheckedPower destination base exponent kind product scratch = .ok code := by
  obtain ⟨accumulate, haccumulate⟩ :=
    emitCheckedMultiplyInto_ok (ι := ι) destination destination scratch.factor h
  obtain ⟨square, hsquare⟩ :=
    emitCheckedMultiplyInto_ok (ι := ι) scratch.factor scratch.factor scratch.factor h
  rw [emitCheckedPower, haccumulate, hsquare]
  exact ⟨_, rfl⟩

/-- The product scratch an operation has, if it is the one emission asks for. -/
def ProductFits (operator : NumericOperator) (kind : WasmIntegerOperationKind)
    (checkMode : IntegerCheckMode) (product : Bool) : Prop :=
  product ↔ checkMode = .Runtime ∧ kind.is32Bit ∧ (operator = .Multiply ∨ operator = .Power)

theorem runtimeCode_ok {operands : WasmNumericOperationOperands Nat}
    {scratch : WasmIntegerScratch Nat} (hcode : HasCode operator kind .Runtime)
    (hshape : operandShapeOk operator operands)
    (hproduct : ProductFits operator kind .Runtime scratch.product.isSome)
    (hpower : scratch.power.isSome ↔ operator = .Power) :
    ∃ code : List (Instr ι),
      integerOperationCode operator kind .Runtime destination operands scratch = .ok code := by
  obtain ⟨product, power⟩ := scratch
  have hfits : operator = .Multiply ∨ operator = .Power → product.isSome = kind.is32Bit := by
    intro h
    refine Bool.eq_iff_iff.2 (Iff.trans hproduct ⟨fun hneeds => hneeds.2.1, ?_⟩)
    exact fun hbits => ⟨rfl, hbits, h⟩
  cases operands with
  | Unary operand =>
      cases operator with
      | Negate =>
          cases power with
          | some power => cases hpower.1 rfl
          | none => exact (emitNegation_ok operand (hcode.1 rfl)).1
      | Add | Subtract | Multiply | Divide | IntegerDivide | Remainder | Power => cases hshape
  | Binary left right =>
      cases operator with
      | Negate | Divide => cases hshape
      | Power =>
          cases power with
          | none => cases hpower.2 rfl
          | some power => exact emitCheckedPower_ok left right power (hfits (.inr rfl))
      | Multiply =>
          cases power with
          | some power => cases hpower.1 rfl
          | none => exact emitCheckedMultiplyInto_ok destination left right (hfits (.inl rfl))
      | Add | Subtract | IntegerDivide | Remainder =>
          cases power with
          | some power => cases hpower.1 rfl
          | none => exact ⟨_, rfl⟩

theorem provenSafeCode_ok {operands : WasmNumericOperationOperands Nat}
    {scratch : WasmIntegerScratch Nat} (hcode : HasCode operator kind .ProvenSafe)
    (hshape : operandShapeOk operator operands) :
    ∃ code : List (Instr ι),
      integerOperationCode operator kind .ProvenSafe destination operands scratch = .ok code := by
  cases operands with
  | Unary operand =>
      cases operator with
      | Negate => exact (emitNegation_ok operand (hcode.1 rfl)).2
      | Add | Subtract | Multiply | Divide | IntegerDivide | Remainder | Power => cases hshape
  | Binary left right =>
      cases operator with
      | Negate | Divide => cases hshape
      | Power => cases hcode.2 rfl
      | Add | Subtract | Multiply | IntegerDivide | Remainder => exact ⟨_, rfl⟩

/-- There is no code for the others. -/
theorem hasCode_of_code {operands : WasmNumericOperationOperands Nat}
    {scratch : WasmIntegerScratch Nat} {code : List (Instr ι)}
    (h : integerOperationCode operator kind checkMode destination operands scratch = .ok code) :
    HasCode operator kind checkMode := by
  constructor
  · rintro rfl
    cases kind with
    | Signed32 | Signed64 => rfl
    | Unsigned32 | Unsigned64 =>
        cases checkMode <;> cases operands <;> cases hpower : scratch.power <;>
          simp only [integerOperationCode, hpower, emitCheckedNegation, emitProvenSafeNegation,
            WasmIntegerOperationKind.signedBounds, reduceCtorEq] at h
  · rintro rfl
    cases checkMode with
    | Runtime => rfl
    | ProvenSafe => cases operands <;> cases h

end Sequences

section Locals

variable {context later : WasmFunctionLoweringContext} {ty : WasmAbiType}
  {operands : WasmNumericOperationOperands WasmLirLocalId}

/-- Every operand is a local of the ABI type. -/
def OperandsTyped (context : WasmFunctionLoweringContext) (ty : WasmAbiType) :
    WasmNumericOperationOperands WasmLirLocalId → Prop
  | .Unary operand => context.localTypeById operand = some ty
  | .Binary left right =>
      context.localTypeById left = some ty ∧ context.localTypeById right = some ty

theorem OperandsTyped.extends (h : OperandsTyped context ty operands)
    (hlater : context.Extends later) : OperandsTyped later ty operands := by
  cases operands with
  | Unary operand => exact hlater.localTypeById h
  | Binary left right => exact ⟨hlater.localTypeById h.1, hlater.localTypeById h.2⟩

theorem index_lt_of_type {localId : WasmLirLocalId}
    (h : context.localTypeById localId = some ty) : localId.index < context.localTypes.length :=
  (List.getElem?_eq_some_iff.1 h).1

theorem ne_of_fresh {old fresh : WasmLirLocalId} (h : context.localTypeById old = some ty)
    (hfresh : context.localTypes.length ≤ fresh.index) : fresh ≠ old := by
  rintro rfl
  have hlt := index_lt_of_type h
  omega

/-- A local that was not in the function before is no operand. -/
theorem OperandsTyped.not_aliases {fresh : WasmLirLocalId}
    (h : OperandsTyped context ty operands)
    (hfresh : context.localTypes.length ≤ fresh.index) : aliasesOperand fresh operands = false := by
  cases operands with
  | Unary operand => exact decide_eq_false (ne_of_fresh h hfresh)
  | Binary left right =>
      exact decide_eq_false (not_or.2 ⟨ne_of_fresh h.1 hfresh, ne_of_fresh h.2 hfresh⟩)

theorem ensureOperandsAbi_ok (h : OperandsTyped context ty operands) :
    ensureOperandsAbi operands ty (buildLocalLayout context) = .ok () := by
  cases operands with
  | Unary operand => exact ensureLocalAbi_buildLocalLayout h _
  | Binary left right =>
      rw [ensureOperandsAbi, ensureLocalAbi_buildLocalLayout h.1]
      exact ensureLocalAbi_buildLocalLayout h.2 _

theorem operandIndices_ok (h : OperandsTyped context ty operands) :
    operandIndices operands (buildLocalLayout context) = .ok (operandsAt operands) := by
  cases operands with
  | Unary operand =>
      rw [operandIndices, localIndex_buildLocalLayout h]
      rfl
  | Binary left right =>
      rw [operandIndices, localIndex_buildLocalLayout h.1, localIndex_buildLocalLayout h.2]
      rfl

/-- The scratch locals an operation was given: new ones, of the types that
emission asks for, and no two the same. -/
structure ScratchAllocated (context next : WasmFunctionLoweringContext)
    (kind : WasmIntegerOperationKind) (scratch : WasmIntegerScratch WasmLirLocalId) : Prop where
  extends_next : context.Extends next
  product : ∀ p, scratch.product = some p →
    next.localTypeById p = some .I64 ∧ context.localTypes.length ≤ p.index
  factor : ∀ w, scratch.power = some w →
    next.localTypeById w.factor = some (abiOf kind.carrier) ∧
      context.localTypes.length ≤ w.factor.index
  exponent : ∀ w, scratch.power = some w →
    next.localTypeById w.exponent = some (abiOf kind.carrier) ∧
      context.localTypes.length ≤ w.exponent.index
  apart : ∀ w, scratch.power = some w → w.factor ≠ w.exponent ∧
    scratch.product ≠ some w.factor ∧ scratch.product ≠ some w.exponent

theorem allocIntegerScratch_allocated (context : WasmFunctionLoweringContext)
    (operator : NumericOperator) (kind : WasmIntegerOperationKind)
    (checkMode : IntegerCheckMode) :
    ScratchAllocated context (allocIntegerScratch context operator kind checkMode).2 kind
      (allocIntegerScratch context operator kind checkMode).1 := by
  simp only [allocIntegerScratch]
  split <;> split <;>
    constructor <;>
    simp [WasmFunctionLoweringContext.allocTemp, WasmFunctionLoweringContext.localTypeById,
      WasmFunctionLoweringContext.Extends]

theorem ScratchAllocated.extends {next : WasmFunctionLoweringContext}
    {kind : WasmIntegerOperationKind} {scratch : WasmIntegerScratch WasmLirLocalId}
    (h : ScratchAllocated context next kind scratch) (hlater : next.Extends later) :
    ScratchAllocated context later kind scratch where
  extends_next := h.extends_next.trans hlater
  product := fun p hp => (h.product p hp).imp_left hlater.localTypeById
  factor := fun w hw => (h.factor w hw).imp_left hlater.localTypeById
  exponent := fun w hw => (h.exponent w hw).imp_left hlater.localTypeById
  apart := h.apart

theorem scratchIndices_ok {kind : WasmIntegerOperationKind}
    {scratch : WasmIntegerScratch WasmLirLocalId}
    (h : ScratchAllocated context later kind scratch) :
    scratchIndices scratch (buildLocalLayout later) = .ok (scratchAt scratch) := by
  obtain ⟨product, power⟩ := scratch
  have hproduct : optionalIndex product (buildLocalLayout later) =
      .ok (product.map (·.index)) := by
    cases product with
    | none => rfl
    | some p =>
        rw [optionalIndex, localIndex_buildLocalLayout (h.product p rfl).1]
        rfl
  rw [scratchIndices, hproduct]
  cases power with
  | none => rfl
  | some w =>
      simp only [localIndex_buildLocalLayout (h.factor w rfl).1,
        localIndex_buildLocalLayout (h.exponent w rfl).1, ok_bind]
      rfl

theorem allocIntegerScratch_power (context : WasmFunctionLoweringContext)
    (operator : NumericOperator) (kind : WasmIntegerOperationKind)
    (checkMode : IntegerCheckMode) :
    (allocIntegerScratch context operator kind checkMode).1.power.isSome ↔
      operator = .Power := by
  simp only [allocIntegerScratch]
  split <;> split <;> simp_all

/-- Lowering allocates a product exactly where emission asks for one. -/
theorem allocIntegerScratch_product (context : WasmFunctionLoweringContext)
    {operator : NumericOperator} {kind : WasmIntegerOperationKind}
    {checkMode : IntegerCheckMode} (h : HasCode operator kind checkMode) :
    ProductFits operator kind checkMode
      (allocIntegerScratch context operator kind checkMode).1.product.isSome := by
  have hmode := h.2
  simp only [allocIntegerScratch, ProductFits]
  split <;> split <;> grind

theorem operandShapeOk_operandsAt (operator : NumericOperator)
    (operands : WasmNumericOperationOperands WasmLirLocalId) :
    operandShapeOk operator (operandsAt operands) = operandShapeOk operator operands := by
  cases operator <;> cases operands <;> rfl

end Locals

section Checks

variable {context later : WasmFunctionLoweringContext} {operation : WasmCheckedIntegerOperation}

theorem checkOperationAliases_ok
    (hmode : operation.checkMode = .Runtime →
      aliasesOperand operation.dst operation.operands = false)
    (hpower : operation.operator = .Power → operation.checkMode = .Runtime) :
    checkOperationAliases operation = .ok () := by
  rw [checkOperationAliases]
  split
  · next halias =>
      have hsafe : operation.checkMode ≠ .Runtime := fun h => by simp [hmode h] at halias
      rw [if_neg hsafe, if_neg (mt hpower hsafe)]
  · rfl

variable (hscratch : ScratchAllocated context later operation.kind operation.scratch)
  (hdst : context.localTypeById operation.dst = some (abiOf operation.kind.carrier))
  (hoperands : OperandsTyped context (abiOf operation.kind.carrier) operation.operands)
include hscratch hdst hoperands

theorem checkProductScratch_ok
    (hfits : ProductFits operation.operator operation.kind operation.checkMode
      operation.scratch.product.isSome) :
    checkProductScratch operation (buildLocalLayout later) = .ok () := by
  rw [ProductFits] at hfits
  simp only [checkProductScratch]
  split
  · next p hp =>
      obtain ⟨htype, hfresh⟩ := hscratch.product p hp
      rw [if_pos (hfits.1 (by rw [hp]; rfl)), ensureLocalAbi_buildLocalLayout htype, ok_bind,
        if_neg]
      rw [hoperands.not_aliases hfresh]
      simpa using ne_of_fresh hdst hfresh
  · next hnone =>
      rw [if_neg]
      intro hneeds
      have hsome := hfits.2 hneeds
      rw [hnone] at hsome
      cases hsome

theorem checkPowerScratch_ok
    (hsome : operation.scratch.power.isSome ↔ operation.operator = .Power)
    (hpower : operation.operator = .Power → operation.checkMode = .Runtime) :
    checkPowerScratch operation (buildLocalLayout later) = .ok () := by
  simp only [checkPowerScratch]
  split
  · next hnone =>
      rw [if_neg]
      intro hoperator
      have hpresent := hsome.2 hoperator
      rw [hnone] at hpresent
      cases hpresent
  · next w hw =>
      have hoperator := hsome.1 (by rw [hw]; rfl)
      obtain ⟨hfactor, hfactorFresh⟩ := hscratch.factor w hw
      obtain ⟨hexponent, hexponentFresh⟩ := hscratch.exponent w hw
      obtain ⟨hne, hproductFactor, hproductExponent⟩ := hscratch.apart w hw
      rw [if_neg (not_not.2 hoperator), if_neg (not_not.2 (hpower hoperator)),
        ensureLocalAbi_buildLocalLayout hfactor, ok_bind,
        ensureLocalAbi_buildLocalLayout hexponent, ok_bind, if_neg]
      rw [hoperands.not_aliases hfactorFresh, hoperands.not_aliases hexponentFresh]
      simp [hne, hproductFactor, hproductExponent, ne_of_fresh hdst hfactorFresh,
        ne_of_fresh hdst hexponentFresh]

variable {ι : Type}

/-- An operation over new scratch locals has code. -/
theorem emitCheckedIntegerOperation_ok
    (hcode : HasCode operation.operator operation.kind operation.checkMode)
    (hshape : operandShapeOk operation.operator operation.operands)
    (hmode : operation.checkMode = .Runtime →
      aliasesOperand operation.dst operation.operands = false)
    (hproduct : ProductFits operation.operator operation.kind operation.checkMode
      operation.scratch.product.isSome)
    (hpower : operation.scratch.power.isSome ↔ operation.operator = .Power) :
    ∃ code : List (Instr ι),
      emitCheckedIntegerOperation operation (buildLocalLayout later) = .ok code := by
  have hdstLater := hscratch.extends_next.localTypeById hdst
  have hoperandsLater := hoperands.extends hscratch.extends_next
  simp only [emitCheckedIntegerOperation, ensureLocalAbi_buildLocalLayout hdstLater, hshape,
    ensureOperandsAbi_ok hoperandsLater, checkOperationAliases_ok hmode hcode.2,
    checkProductScratch_ok hscratch hdst hoperands hproduct,
    checkPowerScratch_ok hscratch hdst hoperands hpower hcode.2,
    localIndex_buildLocalLayout hdstLater, operandIndices_ok hoperandsLater,
    scratchIndices_ok hscratch, ok_bind, Bool.not_true, Bool.false_eq_true, if_false]
  rw [← operandShapeOk_operandsAt] at hshape
  cases hcheck : operation.checkMode with
  | ProvenSafe => exact provenSafeCode_ok (hcheck ▸ hcode) hshape
  | Runtime =>
      refine runtimeCode_ok (hcheck ▸ hcode) hshape ?_ ?_
      · rw [hcheck] at hproduct
        simpa [scratchAt] using hproduct
      · simpa [scratchAt] using hpower

end Checks

section Lowering

variable {context : WasmFunctionLoweringContext} {destination : WasmLirLocalId}
  {ty : WasmAbiType} {operands : WasmNumericOperationOperands WasmLirLocalId}

theorem chosen_typed (h : context.localTypeById destination = some ty) (p : Prop) [Decidable p] :
    (if p then context.allocTemp ty else (destination, context)).2.localTypeById
      (if p then context.allocTemp ty else (destination, context)).1 = some ty := by
  split
  · simp [WasmFunctionLoweringContext.localTypeById, WasmFunctionLoweringContext.allocTemp]
  · exact h

theorem chosen_not_aliases {checkMode : IntegerCheckMode} (destination : WasmLirLocalId)
    (h : OperandsTyped context ty operands) (hmode : checkMode = .Runtime) :
    aliasesOperand
      (if aliasesOperand destination operands ∧ checkMode = .Runtime then context.allocTemp ty
        else (destination, context)).1 operands = false := by
  split
  · exact h.not_aliases (Nat.le_refl _)
  · next halias => exact Bool.eq_false_iff.2 fun h => halias ⟨h, hmode⟩

variable {ι : Type} {kind : WasmIntegerOperationKind}
  {later : WasmFunctionLoweringContext} {operation : WasmCheckedIntegerOperation}

/-- The copy out of a temporary adds nothing that can fail. -/
theorem emitIntegerStmts_lowered {dst : WasmLirLocalId}
    (hdst : later.localTypeById dst = some ty)
    (hdestination : later.localTypeById destination = some ty) :
    (∃ code : List (Instr ι), emitIntegerStmts
      (if dst ≠ destination then
        [.CheckedIntegerOp operation, .Copy destination dst]
      else [.CheckedIntegerOp operation]) (buildLocalLayout later) = .ok code) ↔
    ∃ code : List (Instr ι),
      emitCheckedIntegerOperation operation (buildLocalLayout later) = .ok code := by
  constructor
  · rintro ⟨code, hcode⟩
    split at hcode
    · obtain ⟨first, _, hfirst, _⟩ := emitIntegerStmts_cons hcode
      exact ⟨first, hfirst⟩
    · obtain ⟨first, _, hfirst, _⟩ := emitIntegerStmts_cons hcode
      exact ⟨first, hfirst⟩
  · rintro ⟨code, hcode⟩
    split
    · simp only [emitIntegerStmts, emitIntegerStmt, hcode, localIndex_buildLocalLayout hdst,
        localIndex_buildLocalLayout hdestination, ok_bind]
      exact ⟨_, rfl⟩
    · simp only [emitIntegerStmts, emitIntegerStmt, hcode, ok_bind]
      exact ⟨_, rfl⟩

/-- Between locals of the kind's carrier every operation is lowered, and it has
code in the finished function exactly where emission has a sequence for it. -/
theorem lowerCheckedIntegerOperation_emits (context : WasmFunctionLoweringContext)
    (op : HirNumericOp) (provenSafe : Bool)
    (operands : WasmNumericOperationOperands WasmLirLocalId) (result : LocalId)
    (hkind : integerOperationKind op.domain = .ok kind)
    (hshape : operandShapeOk op.operator operands)
    (hresult : context.localMap result = some destination)
    (hdestination : context.localTypeById destination = some (abiOf kind.carrier))
    (hoperands : OperandsTyped context (abiOf kind.carrier) operands) :
    ∃ statements next,
      lowerCheckedIntegerOperation context op provenSafe operands result =
        .ok (statements, next) ∧
      ∀ later, next.Extends later →
        ((∃ code : List (Instr ι),
          emitIntegerStmts statements (buildLocalLayout later) = .ok code) ↔
        HasCode op.operator kind (if provenSafe then .ProvenSafe else .Runtime)) := by
  rw [lowerCheckedIntegerOperation, hkind, ok_bind]
  simp only [hshape, hresult, Bool.not_true, Bool.false_eq_true, if_false]
  rw [if_neg (not_not.2 hdestination)]
  refine ⟨_, _, rfl, ?_⟩
  intro later hlater
  generalize (if provenSafe then IntegerCheckMode.ProvenSafe else .Runtime) = checkMode at hlater ⊢
  have hscratch := (allocIntegerScratch_allocated _ _ _ _).extends hlater
  have hextends : context.Extends later :=
    (chosen_extends context destination _ _).trans hscratch.extends_next
  have hdst := chosen_typed hdestination
    (aliasesOperand destination operands ∧ checkMode = .Runtime)
  refine Iff.trans (emitIntegerStmts_lowered (hscratch.extends_next.localTypeById hdst)
    (hextends.localTypeById hdestination)) ?_
  constructor
  · rintro ⟨code, hcode⟩
    exact hasCode_of_code (emitCheckedIntegerOperation_code hcode).2.2
  · intro hcode
    exact emitCheckedIntegerOperation_ok hscratch hdst
      (hoperands.extends (chosen_extends context destination _ _)) hcode hshape
      (chosen_not_aliases destination hoperands) (allocIntegerScratch_product _ hcode)
      (allocIntegerScratch_power _ _ _ _)

end Lowering

end Moth.Wasm
