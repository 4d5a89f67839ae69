import Moth.Wasm.IntegerEmission

/-!
# Compile-time and run-time integer arithmetic

An integer operation means one thing whether constant evaluation folds it or
Wasm runs it: a runtime check traps exactly where folding reports a failure,
and both the checked and the proven-safe sequence leave the folded value
otherwise. That both succeed is `lowerCheckedIntegerOperation_emits`: over locals
of the carrier every operation but an unsigned negation and a proven-safe power
has code.
-/

namespace Moth.Backends

open Moth.Lexical Moth.Datatypes Moth.Hir Moth.Lib Moth.Lib.Wasm Moth.ConstEval Moth.Wasm

/-- Every operand is within the inclusive range. -/
def ValuesWithin (range : Int × Int) : WasmNumericOperationOperands Int → Prop
  | .Unary v => range.1 ≤ v ∧ v ≤ range.2
  | .Binary lhs rhs =>
      (range.1 ≤ lhs ∧ lhs ≤ range.2) ∧ (range.1 ≤ rhs ∧ rhs ≤ range.2)

theorem integerRange_of_kind {domain : NumericScalar} {kind : WasmIntegerOperationKind}
    (h : integerOperationKind domain = .ok kind) : domain.integerRange = some kind.range := by
  cases domain with
  | Number scale => cases h
  | Fixed scalar =>
      cases scalar <;> first
        | (cases h; done)
        | (obtain rfl := Except.ok.inj h
           rfl)

theorem operandsHold_of_within {kind : WasmIntegerOperationKind}
    {values : WasmNumericOperationOperands Int} (h : ValuesWithin kind.range values) :
    OperandsHold kind values := by
  cases values <;> exact h

theorem shape_of_operandsAt {σ : Type} {operator : NumericOperator} {s : State σ}
    {kind : WasmIntegerOperationKind} {operands : WasmNumericOperationOperands WasmLirLocalId}
    {values : WasmNumericOperationOperands Int} (hshape : operandShapeOk operator operands)
    (h : OperandsAt kind s (operandsAt operands) values) : operandShapeOk operator values := by
  cases operands <;> cases values <;> first
    | exact False.elim h
    | (cases operator <;> exact hshape)

theorem carrier_bits_le (kind : WasmIntegerOperationKind) : kind.carrier.bits ≤ 64 := by
  cases kind <;> decide

theorem toOption_ok {α β : Type} {x : Except α β} {v : β} (h : x = .ok v) :
    x.toOption = some v := by
  rw [h]
  rfl

section Agreement

variable {ι σ : Type} {meaning : ι → (Nat → Value) → σ → HostResult σ} {fuel : Nat}
  {context next later : WasmFunctionLoweringContext} {op : HirNumericOp} {provenSafe : Bool}
  {operands : WasmNumericOperationOperands WasmLirLocalId} {result : LocalId}
  {destination : WasmLirLocalId} {kind : WasmIntegerOperationKind} {range : Int × Int}
  {statements : List WasmIntegerStmt} {code : List (Instr ι)} {s : State σ}
  {values : WasmNumericOperationOperands Int} {ctx : NumericFoldFailure}

theorem checked_integer_operations_agree
    (hlower : lowerCheckedIntegerOperation context op provenSafe operands result =
      .ok (statements, next))
    (hkind : integerOperationKind op.domain = .ok kind)
    (hrange : op.domain.integerRange = some range)
    (hresult : context.localMap result = some destination)
    (hemit : emitIntegerStmts statements (buildLocalLayout later) = .ok code)
    (hfuel : 64 < fuel) (hvalues : ValuesWithin range values)
    (hoperands : OperandsAt kind s (operandsAt operands) values) :
    (provenSafe = false → (exec meaning fuel code s = .trap ↔
      ∃ e, foldInteger op.operator values range ctx = .error e)) ∧
    ∀ v, foldInteger op.operator values range ctx = .ok v →
      Returns meaning fuel code s context destination kind.carrier (some v) := by
  rw [integerRange_of_kind hkind] at hrange
  obtain rfl := Option.some.inj hrange
  have hholds := operandsHold_of_within hvalues
  obtain ⟨operation, hlowered⟩ := lowerCheckedIntegerOperation_lowered hlower hkind hresult
  have hshape := shape_of_operandsAt hlowered.shape hoperands
  have hfold := toOption_foldInteger ctx hshape hholds
  cases provenSafe with
  | false =>
      have hbits := Nat.lt_of_le_of_lt (carrier_bits_le kind) hfuel
      have hreturns : Returns meaning fuel code s context destination kind.carrier _ :=
        runtime_returns hlowered hemit hbits hholds hoperands
      rw [← hfold] at hreturns
      cases hresult : foldInteger op.operator values kind.range ctx with
      | error e =>
          rw [hresult] at hreturns
          exact ⟨fun _ => ⟨fun _ => ⟨e, rfl⟩, fun _ => hreturns⟩, fun v hv => by cases hv⟩
      | ok v =>
          rw [hresult] at hreturns
          obtain ⟨s', hrun, hafter⟩ := hreturns
          refine ⟨fun _ => ⟨?_, fun ⟨e, he⟩ => by cases he⟩, ?_⟩
          · intro htrap
            rw [hrun] at htrap
            cases htrap
          · intro u hu
            obtain rfl := Except.ok.inj hu
            exact ⟨s', hrun, hafter⟩
  | true =>
      constructor
      · intro h
        cases h
      intro v hv
      rw [toOption_ok hv] at hfold
      exact provenSafe_returns hlowered hemit hholds hoperands hfold.symm

end Agreement

/-- A function whose locals are three `I64`. -/
def threeLocals : WasmFunctionLoweringContext where
  localTypes := [.I64, .I64, .I64]
  localMap := fun l => some ⟨l.index⟩
  localMap_inj := by
    rintro ⟨a⟩ ⟨b⟩ l ha hb
    obtain rfl := Option.some.inj ha
    simpa using (Option.some.inj hb).symm

def threeValues : State Unit :=
  ⟨fun x => if x = 0 then encode .I64 (-3) else encode .I64 5, [], ()⟩

def noHost (i : Empty) (_ : Nat → Value) (_ : Unit) : HostResult Unit := i.elim

theorem checked_integer_operations_agree_power :
    ∃ (statements : List WasmIntegerStmt) (next : WasmFunctionLoweringContext)
      (code : List (Instr Empty)),
      lowerCheckedIntegerOperation threeLocals ⟨.Power, .Fixed .I64⟩ false (.Binary ⟨0⟩ ⟨1⟩) ⟨2⟩ =
        .ok (statements, next) ∧
      emitIntegerStmts statements (buildLocalLayout next) = .ok code ∧
      Returns noHost 65 code threeValues threeLocals ⟨2⟩ .I64 (some (-243)) := by
  obtain ⟨statements, next, hlower, hemits⟩ :=
    lowerCheckedIntegerOperation_emits (ι := Empty) threeLocals ⟨.Power, .Fixed .I64⟩ false
      (.Binary ⟨0⟩ ⟨1⟩) ⟨2⟩ rfl rfl rfl rfl ⟨rfl, rfl⟩
  obtain ⟨code, hemit⟩ := (hemits next (.refl next)).2 ⟨nofun, fun _ => rfl⟩
  have hvalues : ValuesWithin (-9223372036854775808, 9223372036854775807) (.Binary (-3) 5) :=
    ⟨⟨by decide, by decide⟩, by decide, by decide⟩
  have hoperands : OperandsAt .Signed64 threeValues (operandsAt (.Binary ⟨0⟩ ⟨1⟩))
      (.Binary (-3) 5) := ⟨rfl, rfl⟩
  have hfold : foldInteger .Power (.Binary (-3) 5) (-9223372036854775808, 9223372036854775807)
      ⟨false⟩ = .ok (-243) := by decide +kernel
  exact ⟨statements, next, code, hlower, hemit,
    (checked_integer_operations_agree hlower rfl rfl rfl hemit (by decide) hvalues hoperands).2
      (-243) hfold⟩

end Moth.Backends
