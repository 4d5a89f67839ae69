import Moth.Js.RangeCandidate
import Moth.Wasm.RangeCandidate

/-!
# Both backends advance an integer range alike

A range candidate of any counter and signed step domain, lowered for Wasm and
emitted as JavaScript. Each side is run from a state that has the operands on
its own carriers; both report whether the exact successor is in range and
commit it exactly then.
-/

namespace Moth.Backends

open Moth.Lexical Moth.Datatypes Moth.Hir Moth.Lib

/-- The Wasm carrier of an integer scalar. -/
def integerCarrier : FixedScalar → Wasm.Carrier
  | .I64 | .U64 => .I64
  | _ => .I32

/-- Whether an integer scalar is a BigInt in JavaScript. -/
def isJsBigInt (scalar : FixedScalar) : Bool :=
  (Js.JsNumericCarrier.forScalar (.Fixed scalar)).any Js.JsNumericCarrier.isBigInteger

theorem lowerScalarToAbi_integer {scalar : FixedScalar} {range : Int × Int}
    (h : (NumericScalar.Fixed scalar).integerRange = some range) :
    Moth.Wasm.lowerScalarToAbi scalar = Moth.Wasm.abiOf (integerCarrier scalar) := by
  cases scalar <;> first | rfl | cases h

theorem integerRange_literal (scalar : FixedScalar) :
    (NumericScalar.Fixed scalar).integerRange =
      match scalar with
      | .I8 => some (-128, 127)
      | .I16 => some (-32768, 32767)
      | .I32 => some (-2147483648, 2147483647)
      | .I64 => some (-9223372036854775808, 9223372036854775807)
      | .U8 => some (0, 255)
      | .U16 => some (0, 65535)
      | .U32 => some (0, 4294967295)
      | .U64 => some (0, 18446744073709551615)
      | .F16 | .F32 | .F64 | .Byte => none := by
  cases scalar <;> rfl

theorem carrierHolds_of_range {scalar : FixedScalar} {low high x : Int}
    (h : (NumericScalar.Fixed scalar).integerRange = some (low, high))
    (hx : low ≤ x ∧ x ≤ high) :
    Moth.Wasm.CarrierHolds (integerCarrier scalar) (decide (low < 0)) x := by
  rw [integerRange_literal] at h
  cases scalar <;> cases h <;>
    simp only [integerCarrier, Moth.Wasm.CarrierHolds, Int.reduceLT, decide_true, decide_false] <;>
    omega

theorem narrow_of_not_bigInt {scalar : FixedScalar} {low high x : Int}
    (h : (NumericScalar.Fixed scalar).integerRange = some (low, high))
    (hx : low ≤ x ∧ x ≤ high) (hnarrow : isJsBigInt scalar = false) :
    -2147483648 ≤ x ∧ x ≤ 4294967295 := by
  rw [integerRange_literal] at h
  cases scalar <;> cases h <;> first | omega | cases hnarrow

theorem integerRangeCandidateCarrier_integer {scalar : FixedScalar} {range : Int × Int}
    (h : (NumericScalar.Fixed scalar).integerRange = some range) (operand : String) :
    ∃ carrier, Js.integerRangeCandidateCarrier (.Fixed scalar) operand = .ok carrier ∧
      carrier.isBigInteger = isJsBigInt scalar := by
  cases scalar <;> first | cases h; done | exact ⟨_, rfl, rfl⟩

section Agreement

variable {counter stepScalar : FixedScalar} {low high stepLow stepHigh : Int} {inclusive : Bool}
  {x d e : Int}

/-- What Wasm does with a lowered candidate statement. -/
theorem wasm_range_candidate {environment : TypeEnvironment}
    {context next later : Moth.Wasm.WasmFunctionLoweringContext}
    {current step last : Moth.Wasm.LoweredOperand} {candidateResult inRangeResult : LocalId}
    {statement : Moth.Wasm.WasmRangeCandidateStmt} {ι σ : Type}
    (hcounter : (NumericScalar.Fixed counter).integerRange = some (low, high))
    (hstepRange : (NumericScalar.Fixed stepScalar).integerRange = some (stepLow, stepHigh))
    (hsigned : stepLow < 0) (hx : low ≤ x ∧ x ≤ high) (he : low ≤ e ∧ e ≤ high)
    (hd : stepLow ≤ d ∧ d ≤ stepHigh) (hside : RangeSide d x e)
    (hstepType : NumericScalar.fromTypeId step.ty environment = some (.Fixed stepScalar))
    (hlower : Moth.Wasm.lowerIntegerRangeCandidate environment context current step last
      inclusive (.Fixed counter) candidateResult inRangeResult = .ok (statement, next))
    (hresults : candidateResult ≠ inRangeResult) (hlater : next.Extends later) :
    ∃ code : List (Wasm.Instr ι),
      Moth.Wasm.emitIntegerRangeCandidate statement (Moth.Wasm.buildLocalLayout later) = .ok code ∧
      ∀ (meaning : ι → (Nat → Wasm.Value) → σ → Wasm.HostResult σ) (fuel : Nat)
        (s : Wasm.State σ),
        s.locals current.value.index = Moth.Wasm.encode (integerCarrier counter) x →
        s.locals step.value.index = Moth.Wasm.encode (integerCarrier stepScalar) d →
        s.locals last.value.index = Moth.Wasm.encode (integerCarrier counter) e →
        ∃ s', Wasm.exec meaning fuel code s = .next s' ∧
          s'.stack = s.stack ∧ s'.store = s.store ∧
          s'.locals statement.inRangeDst.index =
            .bool (decide (RangeWithin inclusive d (x + d) e)) ∧
          s'.locals statement.candidateDst.index =
            (if RangeWithin inclusive d (x + d) e then
              Moth.Wasm.encode (integerCarrier counter) (x + d)
            else s.locals statement.candidateDst.index) ∧
          ∀ l : Moth.Wasm.WasmLirLocalId, context.localTypeById l ≠ none →
            l ≠ statement.candidateDst → l ≠ statement.inRangeDst →
            s'.locals l.index = s.locals l.index := by
  have hlowered := Moth.Wasm.lowerIntegerRangeCandidate_eq_ok hcounter hstepType hlower
  refine ⟨_, hlowered.emit (lowerScalarToAbi_integer hcounter)
    (lowerScalarToAbi_integer hstepRange) hlater, ?_⟩
  intro meaning fuel s hsx hsd hse
  have hlt : ∀ {l : Moth.Wasm.WasmLirLocalId} {ty : Moth.Wasm.WasmAbiType},
      context.localTypeById l = some ty → l.index < context.localTypes.length :=
    fun h => (List.getElem?_eq_some_iff.1 h).1
  have hne : statement.candidateDst.index ≠ statement.inRangeDst.index := by
    intro heq
    apply hresults
    refine context.localMap_inj _ _ _ hlowered.candidateLocal ?_
    rw [hlowered.inRangeLocal]
    exact congrArg some (congrArg Moth.Wasm.WasmLirLocalId.mk heq).symm
  have hstepHolds := carrierHolds_of_range hstepRange hd
  rw [decide_eq_true hsigned] at hstepHolds
  obtain ⟨s', hrun, hstack, hstore, hinRange, hcandidate, hframe⟩ :=
    Moth.Wasm.exec_rangeCandidateCode meaning fuel
      (carrierHolds_of_range hcounter hx) (carrierHolds_of_range hcounter he) hstepHolds hside
      hsx hsd hse (hlt hlowered.stepType) (hlt hlowered.lastType) (hlt hlowered.candidateType)
      (hlt hlowered.inRangeType) hne
  refine ⟨s', hrun, hstack, hstore, hinRange, hcandidate, ?_⟩
  intro l hl hcand hinr
  obtain ⟨ty, hty⟩ := Option.ne_none_iff_exists'.1 hl
  refine hframe l.index (hlt hty) ?_ ?_
  · intro heq
    exact hcand (congrArg Moth.Wasm.WasmLirLocalId.mk heq)
  · intro heq
    exact hinr (congrArg Moth.Wasm.WasmLirLocalId.mk heq)

/-- What the JavaScript of a candidate statement does. -/
theorem js_range_candidate {environment : TypeEnvironment}
    {expressionType : HirValueId → TypeId} {current step last : HirValueId}
    {candidateResult inRangeResult : HirLocalDestination} (tempCounter : Nat)
    (hcounter : (NumericScalar.Fixed counter).integerRange = some (low, high))
    (hstepRange : (NumericScalar.Fixed stepScalar).integerRange = some (stepLow, stepHigh))
    (hx : low ≤ x ∧ x ≤ high) (he : low ≤ e ∧ e ≤ high) (hd : stepLow ≤ d ∧ d ≤ stepHigh)
    (hstepType : NumericScalar.fromTypeId (expressionType step) environment =
      some (.Fixed stepScalar)) :
    ∃ emitted, Js.emitIntegerRangeCandidateStatement environment expressionType current step
        last inclusive (.Fixed counter) candidateResult inRangeResult tempCounter = .ok emitted ∧
      ∀ (program : HirValueId → (LocalId → Option JavaScript.Value) → Option JavaScript.Value)
        (s : Js.JsState),
        program current s.vars = some (Js.represent (isJsBigInt counter) x) →
        program step s.vars = some (Js.represent (isJsBigInt stepScalar) d) →
        program last s.vars = some (Js.represent (isJsBigInt counter) e) →
        ∃ s', JavaScript.run program emitted.1 s = some s' ∧
          s'.vars = fun other =>
            if RangeWithin inclusive d (x + d) e ∧ other = candidateResult.localId then
              some (Js.represent (isJsBigInt counter) (x + d))
            else if other = inRangeResult.localId then
              some (.boolean (decide (RangeWithin inclusive d (x + d) e)))
            else s.vars other := by
  obtain ⟨counterCarrier, hcarrier, hbig⟩ :=
    integerRangeCandidateCarrier_integer hcounter "counter"
  obtain ⟨stepCarrier, hstepCarrier, hstepBig⟩ :=
    integerRangeCandidateCarrier_integer hstepRange "step"
  refine ⟨Js.rangeCandidateStatements current step last inclusive candidateResult inRangeResult
    (isJsBigInt counter) (isJsBigInt stepScalar) tempCounter, ?_, ?_⟩
  · simp only [Js.emitIntegerRangeCandidateStatement, hcarrier, hstepType, hstepCarrier, hbig,
      hstepBig, ok_bind]
  intro program s hsx hsd hse
  refine Js.run_rangeCandidateStatements program hsx hsd hse ?_ ?_
  · intro hnarrow
    have hboth := Bool.or_eq_false_iff.1 hnarrow
    have hxNarrow := narrow_of_not_bigInt hcounter hx hboth.1
    have hdNarrow := narrow_of_not_bigInt hstepRange hd hboth.2
    omega
  · intro hnarrow hwithin
    have hsum := narrow_of_not_bigInt hcounter (hwithin.between hx he) hnarrow
    omega

/-- Both backends report whether the exact successor is in range, for every
counter and signed step domain, and commit it exactly then; it is in the
counter's domain. -/
theorem integer_range_candidates_agree {environment : TypeEnvironment}
    (expressionType : HirValueId → TypeId) (current step last : HirValueId)
    (candidateResult inRangeResult : HirLocalDestination) (tempCounter : Nat)
    {context next later : Moth.Wasm.WasmFunctionLoweringContext}
    {currentLocal stepLocal lastLocal : Moth.Wasm.WasmLirLocalId}
    {statement : Moth.Wasm.WasmRangeCandidateStmt} {ι σ : Type}
    (hcounter : (NumericScalar.Fixed counter).integerRange = some (low, high))
    (hstepRange : (NumericScalar.Fixed stepScalar).integerRange = some (stepLow, stepHigh))
    (hsigned : stepLow < 0) (hx : low ≤ x ∧ x ≤ high) (he : low ≤ e ∧ e ≤ high)
    (hd : stepLow ≤ d ∧ d ≤ stepHigh) (hside : RangeSide d x e)
    (hstepType : NumericScalar.fromTypeId (expressionType step) environment =
      some (.Fixed stepScalar))
    (hlower : Moth.Wasm.lowerIntegerRangeCandidate environment context
      ⟨expressionType current, currentLocal⟩ ⟨expressionType step, stepLocal⟩
      ⟨expressionType last, lastLocal⟩ inclusive (.Fixed counter) candidateResult.localId
      inRangeResult.localId = .ok (statement, next))
    (hresults : candidateResult.localId ≠ inRangeResult.localId) (hlater : next.Extends later) :
    (RangeWithin inclusive d (x + d) e → low ≤ x + d ∧ x + d ≤ high) ∧
    (∃ code : List (Wasm.Instr ι),
      Moth.Wasm.emitIntegerRangeCandidate statement (Moth.Wasm.buildLocalLayout later) = .ok code ∧
      ∀ (meaning : ι → (Nat → Wasm.Value) → σ → Wasm.HostResult σ) (fuel : Nat)
        (s : Wasm.State σ),
        s.locals currentLocal.index = Moth.Wasm.encode (integerCarrier counter) x →
        s.locals stepLocal.index = Moth.Wasm.encode (integerCarrier stepScalar) d →
        s.locals lastLocal.index = Moth.Wasm.encode (integerCarrier counter) e →
        ∃ s', Wasm.exec meaning fuel code s = .next s' ∧
          s'.stack = s.stack ∧ s'.store = s.store ∧
          s'.locals statement.inRangeDst.index =
            .bool (decide (RangeWithin inclusive d (x + d) e)) ∧
          s'.locals statement.candidateDst.index =
            (if RangeWithin inclusive d (x + d) e then
              Moth.Wasm.encode (integerCarrier counter) (x + d)
            else s.locals statement.candidateDst.index) ∧
          ∀ l : Moth.Wasm.WasmLirLocalId, context.localTypeById l ≠ none →
            l ≠ statement.candidateDst → l ≠ statement.inRangeDst →
            s'.locals l.index = s.locals l.index) ∧
    ∃ emitted, Js.emitIntegerRangeCandidateStatement environment expressionType current step
        last inclusive (.Fixed counter) candidateResult inRangeResult tempCounter = .ok emitted ∧
      ∀ (program : HirValueId → (LocalId → Option JavaScript.Value) → Option JavaScript.Value)
        (s : Js.JsState),
        program current s.vars = some (Js.represent (isJsBigInt counter) x) →
        program step s.vars = some (Js.represent (isJsBigInt stepScalar) d) →
        program last s.vars = some (Js.represent (isJsBigInt counter) e) →
        ∃ s', JavaScript.run program emitted.1 s = some s' ∧
          s'.vars = fun other =>
            if RangeWithin inclusive d (x + d) e ∧ other = candidateResult.localId then
              some (Js.represent (isJsBigInt counter) (x + d))
            else if other = inRangeResult.localId then
              some (.boolean (decide (RangeWithin inclusive d (x + d) e)))
            else s.vars other :=
  ⟨fun hwithin => hwithin.between hx he,
   wasm_range_candidate hcounter hstepRange hsigned hx he hd hside hstepType hlower hresults
    hlater,
   js_range_candidate tempCounter hcounter hstepRange hx he hd hstepType⟩

end Agreement

/-- The keys of a type table with the fixed scalars only. -/
def scalarKey (id : TypeId) : Option BuiltinTypeKey :=
  ([.I8, .I16, .I32, .I64, .U8, .U16, .U32, .U64, .F16, .F32, .F64, .Byte].find?
    fun scalar => fixedScalarTypeId scalar = id).map .FixedScalar

theorem scalarKey_seeded (scalar : FixedScalar) :
    scalarKey (fixedScalarTypeId scalar) = some (.FixedScalar scalar) := by
  cases scalar <;> decide

def scalarEnvironment : TypeEnvironment := ⟨scalarKey, scalarKey_seeded⟩

/-- A function with a `U64` counter, an `I64` step, and the two results. -/
def countdownContext : Moth.Wasm.WasmFunctionLoweringContext where
  localTypes := [.I64, .I64, .I64, .I64, .I32]
  localMap := fun l => if l.index ≤ 1 then some ⟨l.index + 3⟩ else none
  localMap_inj := by
    intro a b l ha hb
    split at ha
    · split at hb
      · have heq := (Option.some.inj ha).trans (Option.some.inj hb).symm
        have hindex : a.index + 3 = b.index + 3 := congrArg Moth.Wasm.WasmLirLocalId.index heq
        obtain ⟨a⟩ := a
        obtain ⟨b⟩ := b
        exact congrArg LocalId.mk (Nat.add_right_cancel hindex)
      · cases hb
    · cases ha

def countdownLocals : Nat → Wasm.Value
  | 0 => Moth.Wasm.encode .I64 9223372036854775808
  | 1 => Moth.Wasm.encode .I64 (-9223372036854775808)
  | _ => Moth.Wasm.encode .I64 0

def countdownOperands (id : HirValueId) : JavaScript.Value :=
  match id.index with
  | 0 => .bigint 9223372036854775808
  | 1 => .bigint (-9223372036854775808)
  | _ => .bigint 0

/-- The minimum signed step takes a `U64` counter from `2 ^ 63` to zero. -/
theorem integer_range_candidates_agree_minimum_step :
    ∃ statement next code emitted,
      Moth.Wasm.lowerIntegerRangeCandidate scalarEnvironment countdownContext
        ⟨fixedScalarTypeId .U64, ⟨0⟩⟩ ⟨fixedScalarTypeId .I64, ⟨1⟩⟩ ⟨fixedScalarTypeId .U64, ⟨2⟩⟩
        true (.Fixed .U64) ⟨0⟩ ⟨1⟩ = .ok (statement, next) ∧
      (Moth.Wasm.emitIntegerRangeCandidate statement (Moth.Wasm.buildLocalLayout next) :
        Except _ (List (Wasm.Instr Empty))) = .ok code ∧
      Js.emitIntegerRangeCandidateStatement scalarEnvironment
        (fun id => if id.index = 1 then fixedScalarTypeId .I64 else fixedScalarTypeId .U64) ⟨0⟩
        ⟨1⟩ ⟨2⟩ true (.Fixed .U64) (.Define ⟨0⟩) (.Define ⟨1⟩) 0 = .ok emitted ∧
      (∃ s', Wasm.exec (fun _ _ _ => .trap) 1 code ⟨countdownLocals, [], ()⟩ = .next s' ∧
        s'.locals 4 = .bool true ∧ s'.locals 3 = Moth.Wasm.encode .I64 0) ∧
      ∃ s', JavaScript.run (fun id _ => some (countdownOperands id)) emitted.1
          ⟨fun _ => none, fun _ => none⟩ = some s' ∧
        s'.vars ⟨1⟩ = some (.boolean true) ∧ s'.vars ⟨0⟩ = some (.bigint 0) := by
  have hlower : Moth.Wasm.lowerIntegerRangeCandidate scalarEnvironment countdownContext
      ⟨fixedScalarTypeId .U64, ⟨0⟩⟩ ⟨fixedScalarTypeId .I64, ⟨1⟩⟩ ⟨fixedScalarTypeId .U64, ⟨2⟩⟩
      true (.Fixed .U64) ⟨0⟩ ⟨1⟩ = .ok _ := rfl
  have hside : RangeSide (-9223372036854775808) 9223372036854775808 0 := by decide
  obtain ⟨-, ⟨code, hemit, hwasm⟩, emitted, hjs, hrun⟩ :=
    integer_range_candidates_agree (ι := Empty) (σ := Unit)
      (fun id => if id.index = 1 then fixedScalarTypeId .I64 else fixedScalarTypeId .U64) ⟨0⟩ ⟨1⟩
      ⟨2⟩ (.Define ⟨0⟩) (.Define ⟨1⟩) 0
      (by rfl : (NumericScalar.Fixed .U64).integerRange = some (0, 18446744073709551615))
      (by rfl : (NumericScalar.Fixed .I64).integerRange =
        some (-9223372036854775808, 9223372036854775807))
      (by decide) (by decide) (by decide) (by decide) hside rfl hlower (by decide)
      (Moth.Wasm.WasmFunctionLoweringContext.Extends.refl _)
  refine ⟨_, _, code, emitted, hlower, hemit, hjs, ?_, ?_⟩
  · obtain ⟨s', hexec, -, -, hinRange, hcandidate, -⟩ := hwasm (fun _ _ _ => .trap) 1
      ⟨countdownLocals, [], ()⟩ rfl rfl rfl
    exact ⟨s', hexec, hinRange, hcandidate⟩
  · obtain ⟨s', hexec, hvariables⟩ := hrun (fun id _ => some (countdownOperands id))
      ⟨fun _ => none, fun _ => none⟩ rfl rfl rfl
    refine ⟨s', hexec, ?_, ?_⟩
    · rw [hvariables]
      rfl
    · rw [hvariables]
      rfl

end Moth.Backends
