import Moth.ConstEval.IntegerFolding
import Moth.Wasm.CheckedPower

/-!
# Checked operations and folding

One result for every operator and domain, which the emitted sequence of a
runtime check delivers and constant evaluation folds to; both fail where there
is none.
-/

namespace Moth.Wasm

open Moth.Lexical Moth.Datatypes Moth.Hir Moth.Lib Moth.Lib.Wasm Moth.ConstEval

/-- The result of an operation of the domain, if it has one. -/
def operationResult (kind : WasmIntegerOperationKind) (operator : NumericOperator)
    (values : WasmNumericOperationOperands Int) : Option Int :=
  match operator, values with
  | .Negate, .Unary v => kind.checked (-v)
  | .Add, .Binary lhs rhs => kind.checked (lhs + rhs)
  | .Subtract, .Binary lhs rhs => kind.checked (lhs - rhs)
  | .Multiply, .Binary lhs rhs => kind.checked (lhs * rhs)
  | .IntegerDivide, .Binary lhs rhs => quotientResult kind lhs rhs
  | .Remainder, .Binary lhs rhs => remainderResult lhs rhs
  | .Power, .Binary lhs rhs => powerResult kind lhs rhs
  | _, _ => none

/-- Constant evaluation of an operation over known operands. -/
def foldInteger (operator : NumericOperator) (values : WasmNumericOperationOperands Int)
    (range : Int × Int) (ctx : NumericFoldFailure) : Except ConstantFoldError Int :=
  match values with
  | .Unary v => checkedIntNegation v range ctx
  | .Binary lhs rhs => checkedIntBinaryResult lhs rhs range operator ctx

/-- Every operand is a value of the domain. -/
def OperandsHold (kind : WasmIntegerOperationKind) : WasmNumericOperationOperands Int → Prop
  | .Unary v => kind.Holds v
  | .Binary lhs rhs => kind.Holds lhs ∧ kind.Holds rhs

/-! ## Folding -/

section Folding

variable {kind : WasmIntegerOperationKind} {lhs rhs v : Int} {ctx : NumericFoldFailure}

theorem checkedI128_of_holds (hv : kind.Holds v) : checkedI128 v = some v := by
  rw [checkedI128, if_pos]
  obtain ⟨hlow, hhigh⟩ := hv
  cases kind <;> simp only [WasmIntegerOperationKind.range] at hlow hhigh <;> omega

/-- The range check after an exact operation. -/
def inRange (range : Int × Int) (ctx : NumericFoldFailure) (value : Option Int) :
    Except ConstantFoldError Int :=
  match value with
  | none => .error (integerOverflowError ctx)
  | some value =>
      if range.1 ≤ value ∧ value ≤ range.2 then .ok value else .error (integerOverflowError ctx)

theorem inRange_some (v : Int) : (inRange kind.range ctx (some v)).toOption = kind.checked v := by
  rw [WasmIntegerOperationKind.checked]
  by_cases hv : kind.Holds v
  · have haccept : inRange kind.range ctx (some v) = .ok v := if_pos hv
    rw [if_pos hv, haccept]
    rfl
  · have hreject : inRange kind.range ctx (some v) = .error (integerOverflowError ctx) :=
      if_neg hv
    rw [if_neg hv, hreject]
    rfl

theorem inRange_checkedI128 (v : Int) :
    (inRange kind.range ctx (checkedI128 v)).toOption = kind.checked v := by
  by_cases hv : kind.Holds v
  · rw [checkedI128_of_holds hv, inRange_some]
  · cases hwide : checkedI128 v with
    | none =>
        rw [WasmIntegerOperationKind.checked, if_neg hv]
        rfl
    | some u =>
        rw [← checkedI128_eq_some hwide, inRange_some]

theorem checkedIntBinaryResult_eq (operator : NumericOperator) (range : Int × Int) :
    checkedIntBinaryResult lhs rhs range operator ctx =
      exactIntBinary lhs rhs operator ctx >>= inRange range ctx := rfl

theorem toOption_checkedIntNegation (v : Int) :
    (checkedIntNegation v kind.range ctx).toOption = kind.checked (-v) :=
  inRange_checkedI128 (-v)

theorem toOption_fold_divide (lhs rhs : Int) :
    (checkedIntBinaryResult lhs rhs kind.range .IntegerDivide ctx).toOption =
      quotientResult kind lhs rhs := by
  rw [checkedIntBinaryResult_eq, exactIntBinary, quotientResult]
  by_cases hzero : rhs = 0
  · rw [if_pos hzero, if_pos hzero]
    rfl
  · rw [if_neg hzero, if_neg hzero, ok_bind, inRange_checkedI128]

theorem toOption_fold_remainder (hlhs : kind.Holds lhs) (hrhs : kind.Holds rhs) :
    (checkedIntBinaryResult lhs rhs kind.range .Remainder ctx).toOption =
      remainderResult lhs rhs := by
  have hfit := WasmIntegerOperationKind.holds_tmod hlhs hrhs
  rw [checkedIntBinaryResult_eq, exactIntBinary, remainderResult]
  by_cases hzero : rhs = 0
  · rw [if_pos hzero, if_pos hzero]
    rfl
  rw [if_neg hzero, if_neg hzero]
  by_cases hone : rhs = -1
  · rw [if_pos hone, ok_bind, inRange_some, hone, Int.tmod_neg, Int.tmod_one]
    exact checked_of_holds kind.holds_zero
  · rw [if_neg hone, ok_bind, inRange_checkedI128]
    exact checked_of_holds hfit

theorem not_holds_pow {n : Nat} (hbase : 2 ≤ lhs.natAbs) (hn : 64 < n) :
    ¬kind.Holds (lhs ^ n) := by
  have habs : (lhs ^ n).natAbs = lhs.natAbs ^ n := Int.natAbs_pow lhs n
  have hgrow : 2 ^ 65 ≤ lhs.natAbs ^ n :=
    (Nat.pow_le_pow_right (by decide) hn).trans (Nat.pow_le_pow_left hbase n)
  rintro ⟨hlow, hhigh⟩
  rw [← habs] at hgrow
  cases kind <;> simp only [WasmIntegerOperationKind.range] at hlow hhigh <;> omega

theorem toOption_fold_power (lhs rhs : Int) :
    (checkedIntBinaryResult lhs rhs kind.range .Power ctx).toOption =
      powerResult kind lhs rhs := by
  rw [checkedIntBinaryResult_eq, exactIntBinary, powerResult]
  by_cases hnegative : rhs < 0
  · rw [if_pos hnegative, if_pos hnegative]
    rfl
  rw [if_neg hnegative, if_neg hnegative]
  by_cases hzero : lhs = 0
  · have hpow : lhs ^ rhs.toNat = if rhs = 0 then 1 else 0 := by
      rw [hzero]
      split
      · next h => rw [h]; rfl
      · next h => exact zero_pow (by omega)
    rw [if_pos hzero, ok_bind, inRange_some, hpow]
  rw [if_neg hzero]
  by_cases hone : lhs = 1
  · rw [if_pos hone, ok_bind, inRange_some, hone, one_pow]
  rw [if_neg hone]
  by_cases hminus : lhs = -1
  · have hpow : lhs ^ rhs.toNat = if rhs % 2 = 0 then 1 else -1 := by
      rw [hminus]
      split
      · next h => exact Even.neg_one_pow (Nat.even_iff.2 (by omega))
      · next h => exact Odd.neg_one_pow (Nat.odd_iff.2 (by omega))
    rw [if_pos hminus, ok_bind, inRange_some, hpow]
  rw [if_neg hminus]
  by_cases hsmall : rhs ≤ 4294967295
  · rw [if_pos hsmall, ok_bind, checkedPow, inRange_checkedI128]
  · rw [if_neg hsmall]
    exact (checked_of_not_holds (not_holds_pow (by omega) (by omega))).symm

variable (ctx) in
theorem toOption_foldInteger {operator : NumericOperator}
    {values : WasmNumericOperationOperands Int} (hshape : operandShapeOk operator values)
    (hvalues : OperandsHold kind values) :
    (foldInteger operator values kind.range ctx).toOption =
      operationResult kind operator values := by
  cases values with
  | Unary v =>
      cases operator <;> first | (cases hshape; done) | exact toOption_checkedIntNegation v
  | Binary lhs rhs =>
      cases operator with
      | Add => exact inRange_checkedI128 (lhs + rhs)
      | Subtract => exact inRange_checkedI128 (lhs - rhs)
      | Multiply => exact inRange_checkedI128 (lhs * rhs)
      | IntegerDivide => exact toOption_fold_divide lhs rhs
      | Remainder => exact toOption_fold_remainder hvalues.1 hvalues.2
      | Power => exact toOption_fold_power lhs rhs
      | Divide => cases hshape
      | Negate => cases hshape

end Folding

/-! ## Execution -/

section Execution

variable {ι σ : Type} {meaning : ι → (Nat → Value) → σ → HostResult σ} {fuel : Nat}
  {kind : WasmIntegerOperationKind} {operator : NumericOperator} {s : State σ}
  {destination : Nat} {operands : WasmNumericOperationOperands Nat}
  {values : WasmNumericOperationOperands Int} {code : List (Instr ι)}

/-- The operand locals hold the operands. -/
def OperandsAt (kind : WasmIntegerOperationKind) (s : State σ) :
    WasmNumericOperationOperands Nat → WasmNumericOperationOperands Int → Prop
  | .Unary operand, .Unary v => s.locals operand = encode kind.carrier v
  | .Binary left right, .Binary lhs rhs =>
      s.locals left = encode kind.carrier lhs ∧ s.locals right = encode kind.carrier rhs
  | _, _ => False

/-- The locals an operation writes. -/
def operationWrites (destination : Nat) (scratch : WasmIntegerScratch Nat) : List Nat :=
  match scratch.power with
  | none => destination :: scratch.product.toList
  | some power => powerWrites destination scratch.product power

/-- What the emitter's checks say of an operation's locals. -/
structure LocalsDistinct (destination : Nat) (operands : WasmNumericOperationOperands Nat)
    (scratch : WasmIntegerScratch Nat) : Prop where
  operand : aliasesOperand destination operands = false
  power : ∀ power, scratch.power = some power →
    PowerDistinct destination scratch.product power ∧
      aliasesOperand power.factor operands = false

theorem emitCheckedNegation_signed {operand : Nat}
    (hcode : emitCheckedNegation destination operand kind = .ok code) : kind.isSigned := by
  cases hsigned : kind.isSigned with
  | true => rfl
  | false =>
      rw [emitCheckedNegation, signedBounds_eq_none hsigned] at hcode
      cases hcode

theorem runtime_delivers_unary {operand : Nat} {v : Int} {product : Option Nat}
    {power : Option (WasmIntegerPowerScratch Nat)}
    (hcode : integerOperationCode operator kind .Runtime destination (.Unary operand)
      ⟨product, power⟩ = .ok code) (hv : kind.Holds v)
    (hs : s.locals operand = encode kind.carrier v) :
    Delivers meaning fuel code s destination [destination] kind.carrier
      (operationResult kind operator (.Unary v)) := by
  cases operator with
  | Negate =>
      cases power with
      | some power => cases hcode
      | none =>
          have hnegation : emitCheckedNegation destination operand kind = .ok code := hcode
          have hsigned := emitCheckedNegation_signed hnegation
          obtain ⟨code', hcode', hdelivers⟩ := emitCheckedNegation_delivers meaning fuel
            hsigned hv hs
          rw [hcode'] at hnegation
          obtain rfl := Except.ok.inj hnegation
          exact hdelivers
  | _ => cases hcode

/-- A runtime check of two operands that needs no loop. -/
theorem runtime_delivers_binary {left right : Nat} {lhs rhs : Int} {product : Option Nat}
    (hcode : integerOperationCode operator kind .Runtime destination (.Binary left right)
      ⟨product, none⟩ = .ok code) (hleft : left ≠ destination) (hright : right ≠ destination)
    (hlhs : kind.Holds lhs) (hrhs : kind.Holds rhs)
    (hl : s.locals left = encode kind.carrier lhs)
    (hr : s.locals right = encode kind.carrier rhs) :
    Delivers meaning fuel code s destination (destination :: product.toList) kind.carrier
      (operationResult kind operator (.Binary lhs rhs)) := by
  have hmore : ∀ x ∈ [destination], x ∈ destination :: product.toList := by
    intro x hx
    rw [List.mem_singleton.1 hx]
    exact List.mem_cons_self
  have hsame : ∀ {emitted : Except InfrastructureFailure (List (Instr ι))} {result : Option Int},
      emitted = .ok code → (∃ code', emitted = .ok code' ∧
        Delivers meaning fuel code' s destination [destination] kind.carrier result) →
      Delivers meaning fuel code s destination (destination :: product.toList) kind.carrier
        result := by
    rintro emitted result hok ⟨code', hcode', hdelivers⟩
    rw [hcode'] at hok
    obtain rfl := Except.ok.inj hok
    exact hdelivers.mono hmore
  cases operator with
  | Add => exact hsame hcode (emitCheckedAdd_delivers hlhs hrhs hl hr hleft hright)
  | Subtract => exact hsame hcode (emitCheckedSubtract_delivers hlhs hrhs hl hr hleft hright)
  | Multiply => exact emitCheckedMultiplyInto_delivers hcode hlhs hrhs hl hr
  | IntegerDivide => exact hsame hcode (emitCheckedDivision_delivers hlhs hrhs hl hr)
  | Remainder => exact hsame hcode (emitCheckedRemainder_delivers hlhs hrhs hl hr)
  | Power => cases hcode
  | Divide => cases hcode
  | Negate => cases hcode

/-- The sequence of a runtime check delivers the operation's result. -/
theorem runtime_delivers {scratch : WasmIntegerScratch Nat}
    (hcode : integerOperationCode operator kind .Runtime destination operands scratch = .ok code)
    (hdistinct : LocalsDistinct destination operands scratch)
    (hfuel : kind.carrier.bits < fuel) (hvalues : OperandsHold kind values)
    (hoperands : OperandsAt kind s operands values) :
    Delivers meaning fuel code s destination (operationWrites destination scratch) kind.carrier
      (operationResult kind operator values) := by
  obtain ⟨product, power⟩ := scratch
  cases operands with
  | Unary operand =>
      cases values with
      | Binary lhs rhs => cases hoperands
      | Unary v =>
          refine Delivers.mono (runtime_delivers_unary hcode hvalues hoperands) ?_
          intro x hx
          rw [List.mem_singleton.1 hx]
          cases power <;> exact List.mem_cons_self
  | Binary left right =>
      cases values with
      | Unary v => cases hoperands
      | Binary lhs rhs =>
          obtain ⟨hl, hr⟩ := hoperands
          obtain ⟨hlhs, hrhs⟩ := hvalues
          have hne : destination ≠ left ∧ destination ≠ right := by
            simpa [aliasesOperand] using hdistinct.operand
          cases power with
          | none =>
              exact runtime_delivers_binary hcode hne.1.symm hne.2.symm hlhs hrhs hl hr
          | some power =>
              obtain ⟨hpower, hfactor⟩ := hdistinct.power power rfl
              have hsource : power.factor ≠ left ∧ power.factor ≠ right := by
                simpa [aliasesOperand] using hfactor
              cases operator with
              | Power =>
                  exact emitCheckedPower_delivers hcode hpower hsource.2.symm hfuel hlhs hrhs hl hr
              | _ => cases hcode

theorem eq_of_checked {v u : Int} (h : kind.checked v = some u) : kind.Holds v ∧ v = u := by
  rw [WasmIntegerOperationKind.checked] at h
  split at h
  · next hv => exact ⟨hv, Option.some.inj h⟩
  · cases h

/-- The native instruction of a binary operation computes its result. -/
theorem integerOpcode_apply {lhs rhs v : Int} {opcode : BinaryOp}
    (hopcode : integerOpcode kind operator = .ok opcode) (hlhs : kind.Holds lhs)
    (hrhs : kind.Holds rhs)
    (hresult : operationResult kind operator (.Binary lhs rhs) = some v) :
    opcode.apply (kind.bitsOf lhs) (kind.bitsOf rhs) = some (kind.bitsOf v) := by
  cases operator with
  | Add =>
      obtain rfl := Except.ok.inj hopcode
      obtain ⟨_, rfl⟩ := eq_of_checked hresult
      exact congrArg some (BitVec.ofInt_add lhs rhs).symm
  | Subtract =>
      obtain rfl := Except.ok.inj hopcode
      obtain ⟨_, rfl⟩ := eq_of_checked hresult
      exact congrArg some (ofInt_sub lhs rhs).symm
  | Multiply =>
      obtain rfl := Except.ok.inj hopcode
      obtain ⟨_, rfl⟩ := eq_of_checked hresult
      exact congrArg some (BitVec.ofInt_mul lhs rhs).symm
  | IntegerDivide =>
      obtain rfl := Except.ok.inj hopcode
      have hquotient : quotientResult kind lhs rhs = some v := hresult
      rw [quotientResult] at hquotient
      split at hquotient
      · cases hquotient
      · next hne =>
          obtain ⟨hfit, rfl⟩ := eq_of_checked hquotient
          exact WasmIntegerOperationKind.apply_divide hlhs hrhs hne hfit
  | Remainder =>
      obtain rfl := Except.ok.inj hopcode
      have hremainder : remainderResult lhs rhs = some v := hresult
      rw [remainderResult] at hremainder
      split at hremainder
      · cases hremainder
      · next hne =>
          obtain rfl := Option.some.inj hremainder
          exact WasmIntegerOperationKind.apply_remainder hlhs hrhs hne
  | _ => cases hopcode

/-- The native instruction alone, over operands that do not fail. -/
theorem provenSafe_delivers {scratch : WasmIntegerScratch Nat} {v : Int}
    (hcode : integerOperationCode operator kind .ProvenSafe destination operands scratch =
      .ok code) (hvalues : OperandsHold kind values)
    (hoperands : OperandsAt kind s operands values)
    (hresult : operationResult kind operator values = some v) :
    Delivers meaning fuel code s destination [destination] kind.carrier (some v) := by
  cases operands with
  | Unary operand =>
      cases values with
      | Binary lhs rhs => cases hoperands
      | Unary u =>
          cases operator with
          | Negate =>
              obtain ⟨_, rfl⟩ := eq_of_checked hresult
              have hnegation : emitProvenSafeNegation destination operand kind = .ok code := hcode
              rw [emitProvenSafeNegation] at hnegation
              split at hnegation
              · cases hnegation
              · obtain rfl := Except.ok.inj hnegation
                exact delivers_of_set (exec_negation hoperands)
          | _ => cases hcode
  | Binary left right =>
      cases values with
      | Unary u => cases hoperands
      | Binary lhs rhs =>
          have hnative : (emitNativeIntegerBinary left right kind operator >>= fun operation =>
              Except.ok (operation ++ [Instr.localSet destination])) = .ok code := by
            cases operator <;> first | exact hcode | cases hcode
          obtain ⟨operation, hnative, hcode⟩ := bind_eq_ok.1 hnative
          obtain ⟨opcode, hopcode, hnative⟩ := bind_eq_ok.1 hnative
          obtain rfl := Except.ok.inj hnative
          obtain rfl := Except.ok.inj hcode
          exact delivers_of_set (exec_native
            (integerOpcode_apply hopcode hvalues.1 hvalues.2 hresult) hoperands.1 hoperands.2)

end Execution

end Moth.Wasm
