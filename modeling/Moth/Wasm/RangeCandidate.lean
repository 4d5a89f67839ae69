import Moth.Hir.RangeStep
import Moth.Lib.OverflowTests
import Moth.Wasm.Lir

/-!
# Integer range candidates in Wasm

`lower_integer_range_candidate` of `hir_to_lir/stmt.rs` and
`emit_integer_range_candidate` of `emit/instructions.rs`: the step of an
integer range, computed by comparing the magnitude of the step with the
wrapping distance to the end, both as unsigned 64-bit integers.
-/

namespace Moth.Wasm

open Moth.Lexical Moth.Datatypes Moth.Hir Moth.Lib Moth.Lib.Wasm

/-- The widened working set, by local id or by resolved index. -/
structure WasmIntegerRangeCandidateScratch (α : Type) where
  current : α
  step : α
  last : α
  ascending : α
  distance : α
  magnitude : α
  candidate : α

structure WasmIntegerRangeCandidate where
  counterCarrier : WasmAbiType
  counterSigned : Bool
  stepCarrier : WasmAbiType
  scratch : WasmIntegerRangeCandidateScratch WasmLirLocalId

/-- `WasmLirStmt::RangeCandidate` of the integer kind. -/
structure WasmRangeCandidateStmt where
  candidateDst : WasmLirLocalId
  inRangeDst : WasmLirLocalId
  current : WasmLirLocalId
  step : WasmLirLocalId
  last : WasmLirLocalId
  inclusive : Bool
  candidate : WasmIntegerRangeCandidate

/-! ## Lowering -/

/-- An operand: the type of its expression and the local it was lowered to. -/
structure LoweredOperand where
  ty : TypeId
  value : WasmLirLocalId

def ensureOperandCarrier (context : WasmFunctionLoweringContext) (operand : WasmLirLocalId)
    (expected : WasmAbiType) (label : String) : Except InfrastructureFailure Unit :=
  if context.localTypeById operand = some expected then .ok ()
  else .error (.lirTransformation
    ("Wasm integer range candidate " ++ label ++ " does not use its carrier"))

def resolveRangeCandidateDestinations (context : WasmFunctionLoweringContext)
    (candidateResult inRangeResult : LocalId) (candidateCarrier : WasmAbiType) :
    Except InfrastructureFailure (WasmLirLocalId × WasmLirLocalId) :=
  match context.localMap candidateResult with
  | none => .error (.unresolvedLocal "range candidate" candidateResult)
  | some candidateDst =>
      match context.localMap inRangeResult with
      | none => .error (.unresolvedLocal "range candidate Bool" inRangeResult)
      | some inRangeDst =>
          if context.localTypeById candidateDst ≠ some candidateCarrier then
            .error (.lirTransformation
              "Wasm range candidate destination does not use its carrier")
          else if context.localTypeById inRangeDst ≠ some .I32 then
            .error (.lirTransformation
              "Wasm range candidate Bool result does not use the I32 carrier")
          else .ok (candidateDst, inRangeDst)

/-- The seven scratch locals, and the function they were allocated in. -/
def allocRangeScratch (context : WasmFunctionLoweringContext) :
    WasmIntegerRangeCandidateScratch WasmLirLocalId × WasmFunctionLoweringContext :=
  let (current, context) := context.allocTemp .I64
  let (step, context) := context.allocTemp .I64
  let (last, context) := context.allocTemp .I64
  let (ascending, context) := context.allocTemp .I32
  let (distance, context) := context.allocTemp .I64
  let (magnitude, context) := context.allocTemp .I64
  let (candidate, context) := context.allocTemp .I64
  ({ current, step, last, ascending, distance, magnitude, candidate }, context)

def lowerIntegerRangeCandidate (environment : TypeEnvironment)
    (context : WasmFunctionLoweringContext) (current step last : LoweredOperand)
    (inclusive : Bool) (domain : NumericScalar) (candidateResult inRangeResult : LocalId) :
    Except InfrastructureFailure (WasmRangeCandidateStmt × WasmFunctionLoweringContext) :=
  match domain, domain.integerRange with
  | .Fixed scalar, some (minimum, _) =>
      if current.ty ≠ fixedScalarTypeId scalar ∨ last.ty ≠ fixedScalarTypeId scalar then
        .error (.compilerBug "Wasm integer range candidate operands do not match their domain")
      else
        match NumericScalar.fromTypeId step.ty environment with
        | some (.Fixed stepScalar) =>
            if ∃ range ∈ (NumericScalar.Fixed stepScalar).integerRange, range.1 < 0 then do
              let counterCarrier := lowerScalarToAbi scalar
              let stepCarrier := lowerScalarToAbi stepScalar
              ensureOperandCarrier context current.value counterCarrier "current"
              ensureOperandCarrier context step.value stepCarrier "step"
              ensureOperandCarrier context last.value counterCarrier "end"
              let (candidateDst, inRangeDst) ← resolveRangeCandidateDestinations context
                candidateResult inRangeResult counterCarrier
              let (scratch, context) := allocRangeScratch context
              .ok ({ candidateDst, inRangeDst, current := current.value, step := step.value,
                     last := last.value, inclusive,
                     candidate := { counterCarrier, counterSigned := decide (minimum < 0),
                                    stepCarrier, scratch } }, context)
            else .error (.compilerBug
              "Wasm integer range candidate step is not a signed fixed integer")
        | _ => .error (.compilerBug
            "Wasm integer range candidate step is not a fixed numeric type")
  | _, _ => .error (.compilerBug
      "Wasm integer range candidate requires a fixed integer counter domain")

/-! ## Emission -/

section Emission

variable {ι : Type}

/-- Sign- or zero-extend one operand into its I64 slot. -/
def emitRangeOperandWidening (source : Nat) (sourceCarrier : Carrier) (sourceSigned : Bool)
    (dst : Nat) : List (Instr ι) :=
  [.localGet source] ++
    (match sourceCarrier with
    | .I32 => if sourceSigned then [.extendS] else [.extendU]
    | .I64 => []) ++
    [.localSet dst]

/-- Direction comes only from the step sign; bounds never select it. -/
def emitRangeDirection (scratch : WasmIntegerRangeCandidateScratch Nat) : List (Instr ι) :=
  [.localGet scratch.step, .const .I64 0, .relation .I64 .gtS, .localSet scratch.ascending]

def emitRangeDistance (scratch : WasmIntegerRangeCandidateScratch Nat) : List (Instr ι) :=
  [.localGet scratch.ascending,
   .ite
    [.localGet scratch.last, .localGet scratch.current, .binary .I64 .sub,
      .localSet scratch.distance]
    [.localGet scratch.current, .localGet scratch.last, .binary .I64 .sub,
      .localSet scratch.distance]]

def emitRangeMagnitude (scratch : WasmIntegerRangeCandidateScratch Nat) : List (Instr ι) :=
  [.localGet scratch.ascending,
   .ite
    [.localGet scratch.step, .localSet scratch.magnitude]
    [.const .I64 0, .localGet scratch.step, .binary .I64 .sub, .localSet scratch.magnitude]]

def emitRangeComparison (scratch : WasmIntegerRangeCandidateScratch Nat) (inclusive : Bool)
    (inRangeDst : Nat) : List (Instr ι) :=
  [.localGet scratch.magnitude, .localGet scratch.distance,
   .relation .I64 (if inclusive then .leU else .ltU), .localSet inRangeDst]

/-- The successor is narrowed only inside the guard. -/
def emitRangeCommit (scratch : WasmIntegerRangeCandidateScratch Nat) (counterCarrier : Carrier)
    (candidateDst inRangeDst : Nat) : List (Instr ι) :=
  [.localGet inRangeDst,
   .ite
    ([.localGet scratch.current, .localGet scratch.step, .binary .I64 .add,
      .localSet scratch.candidate, .localGet scratch.candidate] ++
      (match counterCarrier with
      | .I32 => [.wrap]
      | .I64 => []) ++
      [.localSet candidateDst])
    []]

def rangeCarrier (label : String) (carrier : WasmAbiType) :
    Except InfrastructureFailure Carrier :=
  match carrier with
  | .I32 => .ok .I32
  | .I64 => .ok .I64
  | carrier => .error (.carrierNotInteger label carrier)

def ensureRangeScratch (scratch : WasmIntegerRangeCandidateScratch WasmLirLocalId)
    (context : LirBodyEmitContext) : Except InfrastructureFailure Unit := do
  ensureLocalAbi scratch.current .I64 context "range current widened"
  ensureLocalAbi scratch.step .I64 context "range step widened"
  ensureLocalAbi scratch.last .I64 context "range end widened"
  ensureLocalAbi scratch.distance .I64 context "range distance"
  ensureLocalAbi scratch.magnitude .I64 context "range magnitude"
  ensureLocalAbi scratch.candidate .I64 context "range successor"
  ensureLocalAbi scratch.ascending .I32 context "range direction"

def rangeScratchIndices (scratch : WasmIntegerRangeCandidateScratch WasmLirLocalId)
    (context : LirBodyEmitContext) :
    Except InfrastructureFailure (WasmIntegerRangeCandidateScratch Nat) := do
  let current ← localIndex scratch.current context
  let step ← localIndex scratch.step context
  let last ← localIndex scratch.last context
  let ascending ← localIndex scratch.ascending context
  let distance ← localIndex scratch.distance context
  let magnitude ← localIndex scratch.magnitude context
  let candidate ← localIndex scratch.candidate context
  .ok { current, step, last, ascending, distance, magnitude, candidate }

/-- The sequence over resolved indices. -/
def rangeCandidateCode (current step last candidateDst inRangeDst : Nat) (inclusive : Bool)
    (counterCarrier stepCarrier : Carrier) (counterSigned : Bool)
    (scratch : WasmIntegerRangeCandidateScratch Nat) : List (Instr ι) :=
  emitRangeOperandWidening current counterCarrier counterSigned scratch.current ++
  -- The step is always a signed fixed integer, so a 32-bit carrier sign-extends.
  emitRangeOperandWidening step stepCarrier true scratch.step ++
  emitRangeOperandWidening last counterCarrier counterSigned scratch.last ++
  emitRangeDirection scratch ++
  emitRangeDistance scratch ++
  emitRangeMagnitude scratch ++
  emitRangeComparison scratch inclusive inRangeDst ++
  emitRangeCommit scratch counterCarrier candidateDst inRangeDst

def emitIntegerRangeCandidate (statement : WasmRangeCandidateStmt)
    (context : LirBodyEmitContext) : Except InfrastructureFailure (List (Instr ι)) := do
  let candidate := statement.candidate
  let counterCarrier ← rangeCarrier "counter" candidate.counterCarrier
  let stepCarrier ← rangeCarrier "step" candidate.stepCarrier
  ensureLocalAbi statement.current candidate.counterCarrier context "range current"
  ensureLocalAbi statement.step candidate.stepCarrier context "range step"
  ensureLocalAbi statement.last candidate.counterCarrier context "range end"
  ensureLocalAbi statement.candidateDst candidate.counterCarrier context
    "range candidate destination"
  ensureLocalAbi statement.inRangeDst .I32 context "range Bool result"
  ensureRangeScratch candidate.scratch context
  let current ← localIndex statement.current context
  let step ← localIndex statement.step context
  let last ← localIndex statement.last context
  let candidateDst ← localIndex statement.candidateDst context
  let inRangeDst ← localIndex statement.inRangeDst context
  let scratch ← rangeScratchIndices candidate.scratch context
  .ok (rangeCandidateCode current step last candidateDst inRangeDst statement.inclusive
    counterCarrier stepCarrier candidate.counterSigned scratch)

end Emission

/-! ## Lowered candidates -/

/-- Scratch locals allocated one after the other. -/
def scratchFrom (base : Nat) : WasmIntegerRangeCandidateScratch Nat where
  current := base
  step := base + 1
  last := base + 2
  ascending := base + 3
  distance := base + 4
  magnitude := base + 5
  candidate := base + 6

theorem ensureOperandCarrier_eq_ok {context : WasmFunctionLoweringContext}
    {operand : WasmLirLocalId} {expected : WasmAbiType} {label : String} {u : Unit}
    (h : ensureOperandCarrier context operand expected label = .ok u) :
    context.localTypeById operand = some expected := by
  simp only [ensureOperandCarrier] at h
  split at h
  · assumption
  · cases h

theorem resolveRangeCandidateDestinations_eq_ok {context : WasmFunctionLoweringContext}
    {candidateResult inRangeResult : LocalId} {carrier : WasmAbiType}
    {dsts : WasmLirLocalId × WasmLirLocalId}
    (h : resolveRangeCandidateDestinations context candidateResult inRangeResult carrier =
      .ok dsts) :
    context.localMap candidateResult = some dsts.1 ∧
    context.localMap inRangeResult = some dsts.2 ∧
    context.localTypeById dsts.1 = some carrier ∧ context.localTypeById dsts.2 = some .I32 := by
  simp only [resolveRangeCandidateDestinations] at h
  split at h
  · cases h
  · rename_i candidateDst hcandidate
    split at h
    · cases h
    · rename_i inRangeDst hinRange
      split at h
      · cases h
      · rename_i hctype
        split at h
        · cases h
        · rename_i hrtype
          cases h
          exact ⟨hcandidate, hinRange, not_not.1 hctype, not_not.1 hrtype⟩

/-- What a lowered candidate statement is made of. -/
structure LoweredRangeCandidate (context : WasmFunctionLoweringContext)
    (current step last : LoweredOperand) (inclusive : Bool) (counter stepScalar : FixedScalar)
    (minimum : Int) (candidateResult inRangeResult : LocalId)
    (statement : WasmRangeCandidateStmt) (next : WasmFunctionLoweringContext) : Prop where
  current_eq : statement.current = current.value
  step_eq : statement.step = step.value
  last_eq : statement.last = last.value
  inclusive_eq : statement.inclusive = inclusive
  candidate_eq : statement.candidate = ⟨lowerScalarToAbi counter, decide (minimum < 0),
    lowerScalarToAbi stepScalar, (allocRangeScratch context).1⟩
  next_eq : next = (allocRangeScratch context).2
  currentType : context.localTypeById current.value = some (lowerScalarToAbi counter)
  stepType : context.localTypeById step.value = some (lowerScalarToAbi stepScalar)
  lastType : context.localTypeById last.value = some (lowerScalarToAbi counter)
  candidateLocal : context.localMap candidateResult = some statement.candidateDst
  inRangeLocal : context.localMap inRangeResult = some statement.inRangeDst
  candidateType : context.localTypeById statement.candidateDst = some (lowerScalarToAbi counter)
  inRangeType : context.localTypeById statement.inRangeDst = some .I32

theorem lowerIntegerRangeCandidate_eq_ok {environment : TypeEnvironment}
    {context next : WasmFunctionLoweringContext} {current step last : LoweredOperand}
    {inclusive : Bool} {counter stepScalar : FixedScalar} {minimum maximum : Int}
    {candidateResult inRangeResult : LocalId} {statement : WasmRangeCandidateStmt}
    (hrange : (NumericScalar.Fixed counter).integerRange = some (minimum, maximum))
    (hstep : NumericScalar.fromTypeId step.ty environment = some (.Fixed stepScalar))
    (h : lowerIntegerRangeCandidate environment context current step last inclusive
      (.Fixed counter) candidateResult inRangeResult = .ok (statement, next)) :
    LoweredRangeCandidate context current step last inclusive counter stepScalar minimum
      candidateResult inRangeResult statement next := by
  simp only [lowerIntegerRangeCandidate, hrange, hstep] at h
  split at h
  · cases h
  · split at h
    · obtain ⟨_, hcurrent, h⟩ := bind_eq_ok.1 h
      obtain ⟨_, hstepType, h⟩ := bind_eq_ok.1 h
      obtain ⟨_, hlast, h⟩ := bind_eq_ok.1 h
      obtain ⟨dsts, hdsts, h⟩ := bind_eq_ok.1 h
      obtain ⟨hcand, hinr, hcandType, hinrType⟩ := resolveRangeCandidateDestinations_eq_ok hdsts
      cases h
      exact { current_eq := rfl, step_eq := rfl, last_eq := rfl, inclusive_eq := rfl,
              candidate_eq := rfl, next_eq := rfl,
              currentType := ensureOperandCarrier_eq_ok hcurrent,
              stepType := ensureOperandCarrier_eq_ok hstepType,
              lastType := ensureOperandCarrier_eq_ok hlast, candidateLocal := hcand,
              inRangeLocal := hinr, candidateType := hcandType, inRangeType := hinrType }
    · cases h

@[simp] theorem localTypes_allocRangeScratch (context : WasmFunctionLoweringContext) :
    (allocRangeScratch context).2.localTypes =
      context.localTypes ++ [.I64, .I64, .I64, .I32, .I64, .I64, .I64] := by
  simp [allocRangeScratch, WasmFunctionLoweringContext.allocTemp]

theorem extends_allocRangeScratch (context : WasmFunctionLoweringContext) :
    context.Extends (allocRangeScratch context).2 := by
  rw [WasmFunctionLoweringContext.Extends, localTypes_allocRangeScratch]
  exact List.prefix_append _ _

theorem scratchType {context later : WasmFunctionLoweringContext}
    (h : (allocRangeScratch context).2.Extends later) {k : Nat} {ty : WasmAbiType}
    (hk : ([.I64, .I64, .I64, .I32, .I64, .I64, .I64] : List WasmAbiType)[k]? = some ty) :
    later.localTypeById ⟨context.localTypes.length + k⟩ = some ty := by
  apply h.localTypeById
  rw [WasmFunctionLoweringContext.localTypeById, localTypes_allocRangeScratch,
    List.getElem?_append_right (Nat.le_add_right _ _), Nat.add_sub_cancel_left]
  exact hk

theorem allocRangeScratch_ids (context : WasmFunctionLoweringContext) :
    (allocRangeScratch context).1 =
      { current := ⟨context.localTypes.length⟩, step := ⟨context.localTypes.length + 1⟩,
        last := ⟨context.localTypes.length + 2⟩, ascending := ⟨context.localTypes.length + 3⟩,
        distance := ⟨context.localTypes.length + 4⟩,
        magnitude := ⟨context.localTypes.length + 5⟩,
        candidate := ⟨context.localTypes.length + 6⟩ } := by
  simp [allocRangeScratch, WasmFunctionLoweringContext.allocTemp]

theorem ensureRangeScratch_lowered {context later : WasmFunctionLoweringContext}
    (h : (allocRangeScratch context).2.Extends later) :
    ensureRangeScratch (allocRangeScratch context).1 (buildLocalLayout later) = .ok () := by
  have h0 : later.localTypeById ⟨context.localTypes.length⟩ = some .I64 :=
    scratchType h (k := 0) rfl
  simp only [ensureRangeScratch, allocRangeScratch_ids, ensureLocalAbi_buildLocalLayout h0,
    ensureLocalAbi_buildLocalLayout (scratchType h (k := 1) rfl),
    ensureLocalAbi_buildLocalLayout (scratchType h (k := 2) rfl),
    ensureLocalAbi_buildLocalLayout (scratchType h (k := 3) rfl),
    ensureLocalAbi_buildLocalLayout (scratchType h (k := 4) rfl),
    ensureLocalAbi_buildLocalLayout (scratchType h (k := 5) rfl),
    ensureLocalAbi_buildLocalLayout (scratchType h (k := 6) rfl), ok_bind]

theorem rangeScratchIndices_lowered {context later : WasmFunctionLoweringContext}
    (h : (allocRangeScratch context).2.Extends later) :
    rangeScratchIndices (allocRangeScratch context).1 (buildLocalLayout later) =
      .ok (scratchFrom context.localTypes.length) := by
  have h0 : later.localTypeById ⟨context.localTypes.length⟩ = some .I64 :=
    scratchType h (k := 0) rfl
  simp only [rangeScratchIndices, allocRangeScratch_ids, localIndex_buildLocalLayout h0,
    localIndex_buildLocalLayout (scratchType h (k := 1) rfl),
    localIndex_buildLocalLayout (scratchType h (k := 2) rfl),
    localIndex_buildLocalLayout (scratchType h (k := 3) rfl),
    localIndex_buildLocalLayout (scratchType h (k := 4) rfl),
    localIndex_buildLocalLayout (scratchType h (k := 5) rfl),
    localIndex_buildLocalLayout (scratchType h (k := 6) rfl), ok_bind]
  rfl

theorem rangeCarrier_abiOf (label : String) (c : Carrier) :
    rangeCarrier label (abiOf c) = .ok c := by
  cases c <;> rfl

/-- A lowered candidate always emits. -/
theorem LoweredRangeCandidate.emit {ι : Type} {context next later : WasmFunctionLoweringContext}
    {current step last : LoweredOperand} {inclusive : Bool} {counter stepScalar : FixedScalar}
    {minimum : Int} {candidateResult inRangeResult : LocalId}
    {statement : WasmRangeCandidateStmt} {c stepCarrier : Carrier}
    (h : LoweredRangeCandidate context current step last inclusive counter stepScalar minimum
      candidateResult inRangeResult statement next)
    (hc : lowerScalarToAbi counter = abiOf c)
    (hstepCarrier : lowerScalarToAbi stepScalar = abiOf stepCarrier)
    (hlater : next.Extends later) :
    (emitIntegerRangeCandidate statement (buildLocalLayout later) :
        Except InfrastructureFailure (List (Instr ι))) =
      .ok (rangeCandidateCode current.value.index step.value.index last.value.index
        statement.candidateDst.index statement.inRangeDst.index inclusive c stepCarrier
        (decide (minimum < 0)) (scratchFrom context.localTypes.length)) := by
  rw [h.next_eq] at hlater
  have hext := (extends_allocRangeScratch context).trans hlater
  have hcurrent := hext.localTypeById h.currentType
  have hstep := hext.localTypeById h.stepType
  have hlast := hext.localTypeById h.lastType
  have hcandidate := hext.localTypeById h.candidateType
  have hinRange := hext.localTypeById h.inRangeType
  simp only [emitIntegerRangeCandidate, h.candidate_eq, h.current_eq, h.step_eq, h.last_eq,
    h.inclusive_eq, ensureRangeScratch_lowered hlater, rangeScratchIndices_lowered hlater,
    ensureLocalAbi_buildLocalLayout hcurrent, ensureLocalAbi_buildLocalLayout hstep,
    ensureLocalAbi_buildLocalLayout hlast, ensureLocalAbi_buildLocalLayout hcandidate,
    ensureLocalAbi_buildLocalLayout hinRange, localIndex_buildLocalLayout hcurrent,
    localIndex_buildLocalLayout hstep, localIndex_buildLocalLayout hlast,
    localIndex_buildLocalLayout hcandidate, localIndex_buildLocalLayout hinRange, ok_bind]
  rw [hc, hstepCarrier, rangeCarrier_abiOf, rangeCarrier_abiOf]
  rfl

/-! ## Execution -/

section Execution

variable {ι σ : Type} (meaning : ι → (Nat → Value) → σ → HostResult σ) (fuel : Nat)

/-- The integers a carrier of the given signedness holds exactly. -/
def CarrierHolds : Carrier → Bool → Int → Prop
  | .I32, true, x => -2147483648 ≤ x ∧ x < 2147483648
  | .I32, false, x => 0 ≤ x ∧ x < 4294967296
  | .I64, true, x => -9223372036854775808 ≤ x ∧ x < 9223372036854775808
  | .I64, false, x => 0 ≤ x ∧ x < 18446744073709551616

theorem exec_rangeOperandWidening {source dst : Nat} {c : Carrier} {signed : Bool} {x : Int}
    {s : State σ} (hx : CarrierHolds c signed x) (hs : s.locals source = encode c x) :
    exec meaning fuel (emitRangeOperandWidening source c signed dst) s =
      .next (s.setLocal dst (encode .I64 x)) := by
  cases c with
  | I64 => simp [emitRangeOperandWidening, hs]
  | I32 =>
      cases signed with
      | true =>
          simp only [emitRangeOperandWidening, exec_append, exec_cons, exec_nil,
            execInstr_localGet, hs, encode, Outcome.andThen_next, if_true, execInstr_extendS,
            execInstr_localSet]
          rw [signExtend_ofInt (by decide) hx.1 hx.2]
      | false =>
          simp only [emitRangeOperandWidening, exec_append, exec_cons, exec_nil,
            execInstr_localGet, hs, encode, Outcome.andThen_next, Bool.false_eq_true, if_false,
            execInstr_extendU, execInstr_localSet]
          rw [zeroExtend_ofInt hx.1 hx.2]

theorem exec_rangeDirection {scratch : WasmIntegerRangeCandidateScratch Nat} {step : Int}
    {s : State σ} (hstep : CarrierHolds .I64 true step)
    (hs : s.locals scratch.step = encode .I64 step) :
    exec meaning fuel (emitRangeDirection scratch) s =
      .next (s.setLocal scratch.ascending (.bool (decide (0 < step)))) := by
  have hrel : BitVec.slt (0 : BitVec 64) (BitVec.ofInt 64 step) = decide (0 < step) := by
    rw [BitVec.slt, BitVec.toInt_ofInt_eq_self (by decide) hstep.1 hstep.2]
    rfl
  simp only [emitRangeDirection, exec_cons, exec_nil, execInstr_localGet, hs, encode,
    Outcome.andThen_next, execInstr_const, execInstr_relation, RelationOp.apply,
    execInstr_localSet, hrel]

/-- The remaining distance, in the direction of the step. -/
def rangeDistance (current step last : Int) : Int :=
  if 0 < step then last - current else current - last

/-- The stride. -/
def rangeMagnitude (step : Int) : Int := if 0 < step then step else -step

theorem exec_rangeDistance {scratch : WasmIntegerRangeCandidateScratch Nat}
    (current step last : Int) {s : State σ}
    (hcurrent : s.locals scratch.current = encode .I64 current)
    (hlast : s.locals scratch.last = encode .I64 last)
    (hascending : s.locals scratch.ascending = .bool (decide (0 < step))) :
    exec meaning fuel (emitRangeDistance scratch) s =
      .next (s.setLocal scratch.distance (encode .I64 (rangeDistance current step last))) := by
  by_cases hpos : 0 < step
  · simp [emitRangeDistance, rangeDistance, hcurrent, hlast, hascending, hpos, encode, ofInt_sub]
  · simp [emitRangeDistance, rangeDistance, hcurrent, hlast, hascending, hpos, encode, ofInt_sub]

theorem exec_rangeMagnitude {scratch : WasmIntegerRangeCandidateScratch Nat} (step : Int)
    {s : State σ} (hstep : s.locals scratch.step = encode .I64 step)
    (hascending : s.locals scratch.ascending = .bool (decide (0 < step))) :
    exec meaning fuel (emitRangeMagnitude scratch) s =
      .next (s.setLocal scratch.magnitude (encode .I64 (rangeMagnitude step))) := by
  by_cases hpos : 0 < step
  · simp [emitRangeMagnitude, rangeMagnitude, hstep, hascending, hpos]
  · simp [emitRangeMagnitude, rangeMagnitude, hstep, hascending, hpos, encode, BitVec.ofInt_neg]

theorem exec_rangeComparison {scratch : WasmIntegerRangeCandidateScratch Nat}
    {magnitude distance : Int} {inclusive : Bool} {inRangeDst : Nat} {s : State σ}
    (hmagnitude : CarrierHolds .I64 false magnitude)
    (hdistance : CarrierHolds .I64 false distance)
    (hm : s.locals scratch.magnitude = encode .I64 magnitude)
    (hd : s.locals scratch.distance = encode .I64 distance) :
    exec meaning fuel (emitRangeComparison scratch inclusive inRangeDst) s =
      .next (s.setLocal inRangeDst
        (.bool (decide (if inclusive then magnitude ≤ distance else magnitude < distance)))) := by
  have hmNat := toNat_ofInt_of_range (w := 64) hmagnitude.1 hmagnitude.2
  have hdNat := toNat_ofInt_of_range (w := 64) hdistance.1 hdistance.2
  cases inclusive with
  | true =>
      have hle : BitVec.ule (BitVec.ofInt 64 magnitude) (BitVec.ofInt 64 distance) =
          decide (magnitude ≤ distance) := by
        rw [BitVec.ule, decide_eq_decide]
        omega
      simp only [emitRangeComparison, exec_cons, exec_nil, execInstr_localGet, hm, hd, encode,
        Outcome.andThen_next, State.push_locals, if_true, execInstr_relation, RelationOp.apply,
        execInstr_localSet, hle]
  | false =>
      have hlt : BitVec.ult (BitVec.ofInt 64 magnitude) (BitVec.ofInt 64 distance) =
          decide (magnitude < distance) := by
        rw [BitVec.ult, decide_eq_decide]
        omega
      simp only [emitRangeComparison, exec_cons, exec_nil, execInstr_localGet, hm, hd, encode,
        Outcome.andThen_next, State.push_locals, Bool.false_eq_true, if_false,
        execInstr_relation, RelationOp.apply, execInstr_localSet, hlt]

theorem exec_rangeCommit {scratch : WasmIntegerRangeCandidateScratch Nat} {c : Carrier}
    (current step : Int) {inRange : Bool} {candidateDst inRangeDst : Nat} {s : State σ}
    (hcurrent : s.locals scratch.current = encode .I64 current)
    (hstep : s.locals scratch.step = encode .I64 step)
    (hinRange : s.locals inRangeDst = .bool inRange) :
    exec meaning fuel (emitRangeCommit scratch c candidateDst inRangeDst) s =
      .next (if inRange then
        (s.setLocal scratch.candidate (encode .I64 (current + step))).setLocal candidateDst
          (encode c (current + step))
        else s) := by
  cases inRange with
  | false => simp [emitRangeCommit, hinRange]
  | true =>
      cases c with
      | I64 => simp [emitRangeCommit, hinRange, hcurrent, hstep, encode, BitVec.ofInt_add]
      | I32 =>
          have htrunc := truncate_ofInt (v := 64) (w := 32) (by decide) (current + step)
          simp [emitRangeCommit, hinRange, hcurrent, hstep, encode, ← BitVec.ofInt_add]
          exact congrArg _ (congrArg _ htrunc)

theorem CarrierHolds.widen {c : Carrier} {signed : Bool} {x : Int} (h : CarrierHolds c signed x) :
    CarrierHolds .I64 signed x := by
  cases c <;> cases signed <;> simp only [CarrierHolds] at h ⊢ <;> omega

theorem rangeDistance_holds {signed : Bool} {current step last : Int}
    (hcurrent : CarrierHolds .I64 signed current) (hlast : CarrierHolds .I64 signed last)
    (hside : RangeSide step current last) :
    CarrierHolds .I64 false (rangeDistance current step last) := by
  unfold rangeDistance
  unfold RangeSide at hside
  cases signed <;> simp only [CarrierHolds] at * <;> split at hside <;> omega

theorem rangeMagnitude_holds {step : Int} (hstep : CarrierHolds .I64 true step) :
    CarrierHolds .I64 false (rangeMagnitude step) := by
  unfold rangeMagnitude
  simp only [CarrierHolds] at *
  omega

theorem rangeWithin_iff {inclusive : Bool} {current step last : Int} :
    (if inclusive then rangeMagnitude step ≤ rangeDistance current step last
      else rangeMagnitude step < rangeDistance current step last) ↔
    RangeWithin inclusive step (current + step) last := by
  unfold RangeWithin rangeMagnitude rangeDistance
  cases inclusive <;> by_cases hpos : 0 < step <;> simp only [hpos, if_true, if_false,
    Bool.false_eq_true] <;> omega

/-- What the sequence does: it reports whether the exact successor is in
range, commits it exactly then, and otherwise writes only scratch. -/
theorem exec_rangeCandidateCode {c stepCarrier : Carrier} {signed inclusive : Bool}
    {current step last : Int} {currentLocal stepLocal lastLocal candidateDst inRangeDst base : Nat}
    {s : State σ} (hcurrent : CarrierHolds c signed current) (hlast : CarrierHolds c signed last)
    (hstep : CarrierHolds stepCarrier true step)
    (hside : RangeSide step current last)
    (hscurrent : s.locals currentLocal = encode c current)
    (hsstep : s.locals stepLocal = encode stepCarrier step)
    (hslast : s.locals lastLocal = encode c last)
    (hstepLt : stepLocal < base) (hlastLt : lastLocal < base)
    (hcandidateLt : candidateDst < base) (hinRangeLt : inRangeDst < base)
    (hne : candidateDst ≠ inRangeDst) :
    ∃ s', exec meaning fuel (rangeCandidateCode currentLocal stepLocal lastLocal candidateDst
        inRangeDst inclusive c stepCarrier signed (scratchFrom base)) s = .next s' ∧
      s'.stack = s.stack ∧ s'.store = s.store ∧
      s'.locals inRangeDst = .bool (decide (RangeWithin inclusive step (current + step) last)) ∧
      s'.locals candidateDst =
        (if RangeWithin inclusive step (current + step) last then encode c (current + step)
          else s.locals candidateDst) ∧
      ∀ x, x < base → x ≠ candidateDst → x ≠ inRangeDst → s'.locals x = s.locals x := by
  have hdistance := rangeDistance_holds hcurrent.widen hlast.widen hside
  have hmagnitude := rangeMagnitude_holds hstep.widen
  simp only [rangeCandidateCode, exec_append]
  rw [exec_rangeOperandWidening meaning fuel hcurrent hscurrent, Outcome.andThen_next,
    exec_rangeOperandWidening meaning fuel hstep
      (by simp (disch := omega) [scratchFrom, hsstep]), Outcome.andThen_next,
    exec_rangeOperandWidening meaning fuel hlast
      (by simp (disch := omega) [scratchFrom, hslast]), Outcome.andThen_next,
    exec_rangeDirection meaning fuel hstep.widen
      (by simp (disch := omega) [scratchFrom]), Outcome.andThen_next,
    exec_rangeDistance meaning fuel current step last
      (by simp (disch := omega) [scratchFrom]) (by simp (disch := omega) [scratchFrom])
      (by simp (disch := omega) [scratchFrom]), Outcome.andThen_next,
    exec_rangeMagnitude meaning fuel step
      (by simp (disch := omega) [scratchFrom]) (by simp (disch := omega) [scratchFrom]),
    Outcome.andThen_next,
    exec_rangeComparison meaning fuel hmagnitude hdistance
      (by simp (disch := omega) [scratchFrom]) (by simp (disch := omega) [scratchFrom]),
    Outcome.andThen_next,
    exec_rangeCommit meaning fuel current step
      (by simp (disch := omega) [scratchFrom]) (by simp (disch := omega) [scratchFrom])
      (State.setLocal_self _ _ _)]
  refine ⟨_, rfl, ?_⟩
  by_cases hin : RangeWithin inclusive step (current + step) last
  · simp (disch := omega) [hin, scratchFrom, rangeWithin_iff]
    intro x hx hcand hinr
    simp (disch := omega)
  · simp (disch := omega) [hin, scratchFrom, rangeWithin_iff]
    intro x hx hcand hinr
    simp (disch := omega)

end Execution

end Moth.Wasm
