import Moth.Hir.RangeStep
import Moth.Hir.Syntax
import Moth.Lib.JavaScript
import Moth.Lib.Result

/-!
# Integer range candidates in JavaScript

`emit_integer_range_candidate_statement` of `js_statement.rs` and the carrier
choice of `numeric_carrier.rs`: the step of an integer range in exact
arithmetic, on Numbers where both operands are at most 32 bits wide and on
BigInts otherwise.

The emitted text stands here as statements. A temporary is its stem and the
value of the counter that made it fresh.
-/

namespace Moth.Js

open Moth.Lexical Moth.Datatypes Moth.Hir Moth.Lib Moth.Lib.JavaScript

/-- How a numeric scalar is represented. -/
inductive JsNumericCarrier where
  | ExactInteger (min max : Int)
  | BigInteger (min max : Int)
  | BinaryFloat (precision : BinaryFloatPrecision)
  | ScaledInteger (scale : NumberScale)
deriving DecidableEq

def MAX_EXACT_JS_INTEGER : Int := 9007199254740991

def JsNumericCarrier.forScalar (scalar : NumericScalar) : Option JsNumericCarrier :=
  match scalar with
  | .Number scale => some (.ScaledInteger scale)
  | .Fixed fixed =>
      match (NumericScalar.Fixed fixed).integerRange with
      | some (min, max) =>
          some (if -MAX_EXACT_JS_INTEGER ≤ min ∧ max ≤ MAX_EXACT_JS_INTEGER then
            .ExactInteger min max
          else .BigInteger min max)
      | none => fixed.binaryFloatPrecision.map .BinaryFloat

def JsNumericCarrier.isBigInteger : JsNumericCarrier → Bool
  | .BigInteger _ _ => true
  | _ => false

/-- The value that stands for an integer on an integer carrier. -/
def represent (isBigInteger : Bool) (value : Int) : Value :=
  if isBigInteger then .bigint value else .number value

/-- Why emission gave up: only on internal contradictions. -/
inductive JsFailure where
  | compilerBug (message : String)
deriving DecidableEq

/-- The JS carrier one integer range candidate operand uses. -/
def integerRangeCandidateCarrier (scalar : NumericScalar) (operand : String) :
    Except JsFailure JsNumericCarrier :=
  match JsNumericCarrier.forScalar scalar with
  | some (.ExactInteger min max) => .ok (.ExactInteger min max)
  | some (.BigInteger min max) => .ok (.BigInteger min max)
  | _ => .error (.compilerBug
      ("JS range candidate " ++ operand ++ " is not an integer domain"))

structure JsName where
  stem : String
  index : Nat
deriving DecidableEq

abbrev JsExpr := Expr JsName HirValueId
abbrev JsStmt := Stmt JsName HirValueId LocalId
abbrev JsState := State JsName LocalId

/-- Both forms of destination leave the value in the local's binding. -/
def emitValueDestination (destination : HirLocalDestination) (value : JsExpr) : JsStmt :=
  match destination with
  | .Define target => .assign target value
  | .Update target => .assign target value

/-- An operand on the arithmetic carrier: promoted to a constant of its own, or
used as it is. -/
def promoteOperand (promote : Bool) (operand : JsName) (tempCounter : Nat) :
    List JsStmt × JsName × Nat :=
  if promote then
    let promoted : JsName := ⟨"__range_candidate_wide", tempCounter⟩
    ([.const promoted (.toBigInt (.name operand))], promoted, tempCounter + 1)
  else ([], operand, tempCounter)

/-- The constants that hold the operands on the arithmetic carrier. -/
structure RangeOperandNames where
  current : JsName
  step : JsName
  last : JsName

/-- Reading the operands, with the ones on the other carrier promoted. -/
def emitRangeOperands (current step last : HirValueId) (counterIsBigInt stepIsBigInt : Bool)
    (tempCounter : Nat) : List JsStmt × RangeOperandNames × Nat :=
  -- A Number carrier is exact only up to 32 bits, so one wide operand moves every value
  -- onto the exact BigInt carrier.
  let arithmeticIsBigInt := counterIsBigInt || stepIsBigInt
  let currentName : JsName := ⟨"__range_candidate_current", tempCounter⟩
  let stepName : JsName := ⟨"__range_candidate_step", tempCounter + 1⟩
  let lastName : JsName := ⟨"__range_candidate_end", tempCounter + 2⟩
  let (wideCurrent, arithmeticCurrent, tempCounter) :=
    promoteOperand (arithmeticIsBigInt && !counterIsBigInt) currentName (tempCounter + 5)
  let (wideStep, arithmeticStep, tempCounter) :=
    promoteOperand (arithmeticIsBigInt && !stepIsBigInt) stepName tempCounter
  let (wideLast, arithmeticLast, tempCounter) :=
    promoteOperand (arithmeticIsBigInt && !counterIsBigInt) lastName tempCounter
  ([.const currentName (.program current), .const stepName (.program step),
      .const lastName (.program last)] ++ wideCurrent ++ wideStep ++ wideLast,
    ⟨arithmeticCurrent, arithmeticStep, arithmeticLast⟩, tempCounter)

/-- The successor, the bound decision and the guarded commit. -/
def emitRangeDecision (names : RangeOperandNames) (nextName inRangeName : JsName)
    (inclusive arithmeticIsBigInt counterIsBigInt : Bool)
    (candidateResult inRangeResult : HirLocalDestination) : List JsStmt :=
  let zeroLiteral : Value := if arithmeticIsBigInt then .bigint 0 else .number 0
  let ascendingComparison : Comparison := if inclusive then .lessEqual else .less
  let descendingComparison : Comparison := if inclusive then .greaterEqual else .greater
  let candidateValue : JsExpr :=
    if arithmeticIsBigInt && !counterIsBigInt then .toNumber (.name nextName) else .name nextName
  [.const nextName (.add (.name names.current) (.name names.step)),
   .const inRangeName (.conditional
    (.compare .greater (.name names.step) (.literal zeroLiteral))
    (.compare ascendingComparison (.name nextName) (.name names.last))
    (.compare descendingComparison (.name nextName) (.name names.last))),
   emitValueDestination inRangeResult (.name inRangeName),
   .whenTrue (.name inRangeName) [emitValueDestination candidateResult candidateValue]]

/-- The statements, once the carriers are known. The five names of the
statement come before the promoted ones. -/
def rangeCandidateStatements (current step last : HirValueId) (inclusive : Bool)
    (candidateResult inRangeResult : HirLocalDestination)
    (counterIsBigInt stepIsBigInt : Bool) (tempCounter : Nat) : List JsStmt × Nat :=
  let nextName : JsName := ⟨"__range_candidate_next", tempCounter + 3⟩
  let inRangeName : JsName := ⟨"__range_candidate_valid", tempCounter + 4⟩
  let (operands, names, tempCounter) :=
    emitRangeOperands current step last counterIsBigInt stepIsBigInt tempCounter
  (operands ++ emitRangeDecision names nextName inRangeName inclusive
    (counterIsBigInt || stepIsBigInt) counterIsBigInt candidateResult inRangeResult, tempCounter)

def emitIntegerRangeCandidateStatement (environment : TypeEnvironment)
    (expressionType : HirValueId → TypeId) (current step last : HirValueId) (inclusive : Bool)
    (domain : NumericScalar) (candidateResult inRangeResult : HirLocalDestination)
    (tempCounter : Nat) : Except JsFailure (List JsStmt × Nat) := do
  let counterCarrier ← integerRangeCandidateCarrier domain "counter"
  let stepScalar ← match NumericScalar.fromTypeId (expressionType step) environment with
    | some scalar => .ok scalar
    | none => .error (.compilerBug
        "JS backend received a range candidate step without a numeric type")
  let stepCarrier ← integerRangeCandidateCarrier stepScalar "step"
  .ok (rangeCandidateStatements current step last inclusive candidateResult inRangeResult
    counterCarrier.isBigInteger stepCarrier.isBigInteger tempCounter)

/-! ## Running the statements -/

section Runs

variable (program : HirValueId → (LocalId → Option Value) → Option Value)

@[simp] theorem runStmt_emitValueDestination (destination : HirLocalDestination)
    (value : JsExpr) (s : JsState) :
    runStmt program (emitValueDestination destination value) s =
      (evalExpr program s value).map (s.set destination.localId) := by
  cases destination <;> exact runStmt_assign program _ _ s

/-- After the operands are read, each is on the arithmetic carrier under its
own name, and no program variable has changed. -/
theorem run_rangeOperands (tempCounter : Nat) {current step last : HirValueId}
    {counterIsBigInt stepIsBigInt : Bool} {x d e : Int} {s : JsState}
    (hcurrent : program current s.vars = some (represent counterIsBigInt x))
    (hstep : program step s.vars = some (represent stepIsBigInt d))
    (hlast : program last s.vars = some (represent counterIsBigInt e)) :
    ∃ s' names, (emitRangeOperands current step last counterIsBigInt stepIsBigInt
        tempCounter).2.1 = names ∧
      run program (emitRangeOperands current step last counterIsBigInt stepIsBigInt
        tempCounter).1 s = some s' ∧ s'.vars = s.vars ∧
      s'.constants names.current = some (represent (counterIsBigInt || stepIsBigInt) x) ∧
      s'.constants names.step = some (represent (counterIsBigInt || stepIsBigInt) d) ∧
      s'.constants names.last = some (represent (counterIsBigInt || stepIsBigInt) e) ∧
      (∀ name ∈ [names.current, names.step, names.last],
        name.stem ≠ "__range_candidate_next" ∧ name.stem ≠ "__range_candidate_valid") := by
  cases counterIsBigInt <;> cases stepIsBigInt <;>
    simp [emitRangeOperands, promoteOperand, represent, hcurrent, hstep, hlast, Value.integer]

@[simp] theorem integer_represent (isBigInteger : Bool) (value : Int) :
    (represent isBigInteger value).integer = some value := by
  cases isBigInteger <;> rfl

theorem evalExpr_rangeTest {n m l : JsName} {i arithmetic : Bool} {next d e : Int}
    {s : JsState} (hstep : s.constants n = some (represent arithmetic d))
    (hnext : s.constants m = some (represent arithmetic next))
    (hlast : s.constants l = some (represent arithmetic e)) :
    evalExpr program s (.conditional
      (.compare .greater (.name n) (.literal (represent arithmetic 0)))
      (.compare (if i then .lessEqual else .less) (.name m) (.name l))
      (.compare (if i then .greaterEqual else .greater) (.name m) (.name l))) =
      some (.boolean (decide (RangeWithin i d next e))) := by
  by_cases hpos : 0 < d
  · cases i <;> simp [hstep, hnext, hlast, Comparison.holds, RangeWithin, hpos]
  · cases i <;> simp [hstep, hnext, hlast, Comparison.holds, RangeWithin, hpos]

theorem evalExpr_candidateValue {nextName : JsName} {arithmetic counter : Bool} {next : Int}
    {s : JsState} (hnext : s.constants nextName = some (represent arithmetic next))
    (hcounter : counter = true → arithmetic = true)
    (hnarrow : counter = false → -9007199254740992 ≤ next ∧ next ≤ 9007199254740992) :
    evalExpr program s (if arithmetic && !counter then .toNumber (.name nextName)
      else .name nextName) = some (represent counter next) := by
  cases counter with
  | true =>
      rw [hcounter rfl] at hnext ⊢
      exact hnext
  | false =>
      cases arithmetic with
      | false => exact hnext
      | true => simp [hnext, represent, exactNumber_eq (hnarrow rfl).1 (hnarrow rfl).2]

/-- The decision reports whether the exact successor is in range and commits it
exactly then. -/
theorem run_rangeDecision (nextIndex validIndex : Nat)
    (candidateResult inRangeResult : HirLocalDestination) {names : RangeOperandNames}
    {inclusive arithmetic counter : Bool} {x d e : Int} {s : JsState}
    (hstems : ∀ name ∈ [names.current, names.step, names.last],
      name.stem ≠ "__range_candidate_next" ∧ name.stem ≠ "__range_candidate_valid")
    (hcurrent : s.constants names.current = some (represent arithmetic x))
    (hstep : s.constants names.step = some (represent arithmetic d))
    (hlast : s.constants names.last = some (represent arithmetic e))
    (hcounter : counter = true → arithmetic = true)
    (hsum : arithmetic = false → -9007199254740992 ≤ x + d ∧ x + d ≤ 9007199254740992)
    (hnarrow : counter = false → RangeWithin inclusive d (x + d) e →
      -9007199254740992 ≤ x + d ∧ x + d ≤ 9007199254740992) :
    ∃ s', run program (emitRangeDecision names ⟨"__range_candidate_next", nextIndex⟩
        ⟨"__range_candidate_valid", validIndex⟩ inclusive arithmetic counter candidateResult
        inRangeResult) s = some s' ∧
      s'.vars = fun other =>
        if RangeWithin inclusive d (x + d) e ∧ other = candidateResult.localId then
          some (represent counter (x + d))
        else if other = inRangeResult.localId then
          some (.boolean (decide (RangeWithin inclusive d (x + d) e)))
        else s.vars other := by
  have hne : ∀ name ∈ [names.current, names.step, names.last],
      name ≠ ⟨"__range_candidate_next", nextIndex⟩ := by
    intro name hname heq
    exact (hstems name hname).1 (by rw [heq])
  have hadd : (represent arithmetic x).add (represent arithmetic d) =
      some (represent arithmetic (x + d)) := by
    cases arithmetic with
    | true => rfl
    | false => exact exactNumber_eq (hsum rfl).1 (hsum rfl).2
  -- The state with the successor declared, and with the decision as well.
  let s₁ : JsState :=
    s.declare ⟨"__range_candidate_next", nextIndex⟩ (represent arithmetic (x + d))
  let valid := decide (RangeWithin inclusive d (x + d) e)
  let s₂ : JsState := (s₁.declare ⟨"__range_candidate_valid", validIndex⟩ (.boolean valid)).set
    inRangeResult.localId (.boolean valid)
  have hfirst : runStmt program (.const ⟨"__range_candidate_next", nextIndex⟩
      (.add (.name names.current) (.name names.step))) s = some s₁ := by
    simp [hcurrent, hstep, hadd, s₁]
  have htest := evalExpr_rangeTest program (s := s₁) (n := names.step)
    (m := ⟨"__range_candidate_next", nextIndex⟩) (l := names.last) (i := inclusive)
    ((State.declare_of_ne _ _ (hne names.step (by simp))).trans hstep)
    (State.declare_self _ _ _)
    ((State.declare_of_ne _ _ (hne names.last (by simp))).trans hlast)
  have hvalid : evalExpr program s₂ (.name ⟨"__range_candidate_valid", validIndex⟩) =
      some (.boolean valid) := State.declare_self _ _ _
  have hnext : s₂.constants ⟨"__range_candidate_next", nextIndex⟩ =
      some (represent arithmetic (x + d)) := by
    simp [s₂, s₁]
  refine ⟨if valid then s₂.set candidateResult.localId (represent counter (x + d)) else s₂,
    ?_, ?_⟩
  · have hzero : (if arithmetic then Value.bigint 0 else Value.number 0) =
        represent arithmetic 0 := rfl
    simp only [emitRangeDecision, run_cons, hfirst, Option.bind_some, runStmt_const, hzero, htest,
      Option.map_some, runStmt_emitValueDestination, run_nil]
    rw [show evalExpr program (s₁.declare ⟨"__range_candidate_valid", validIndex⟩ (.boolean valid))
      (.name ⟨"__range_candidate_valid", validIndex⟩) = some (.boolean valid) from
      State.declare_self _ _ _, Option.map_some, Option.bind_some,
      runStmt_whenTrue program hvalid]
    by_cases hwithin : RangeWithin inclusive d (x + d) e
    · have hvalue := evalExpr_candidateValue program hnext hcounter
        fun hc => hnarrow hc hwithin
      have htrue : valid = true := decide_eq_true hwithin
      rw [htrue, if_pos rfl, if_pos rfl, run_cons, runStmt_emitValueDestination, hvalue]
      rfl
    · have hfalse : valid = false := decide_eq_false hwithin
      rw [hfalse]
      rfl
  · by_cases hwithin : RangeWithin inclusive d (x + d) e
    · funext other
      simp [valid, hwithin, s₂, s₁, State.set]
    · funext other
      simp [valid, hwithin, s₂, s₁, State.set]

/-- What the statements do, from any state that has the operands. -/
theorem run_rangeCandidateStatements {current step last : HirValueId} {inclusive : Bool}
    {candidateResult inRangeResult : HirLocalDestination} {counterIsBigInt stepIsBigInt : Bool}
    {tempCounter : Nat} {x d e : Int} {s : JsState}
    (hcurrent : program current s.vars = some (represent counterIsBigInt x))
    (hstep : program step s.vars = some (represent stepIsBigInt d))
    (hlast : program last s.vars = some (represent counterIsBigInt e))
    (hsum : (counterIsBigInt || stepIsBigInt) = false →
      -9007199254740992 ≤ x + d ∧ x + d ≤ 9007199254740992)
    (hnarrow : counterIsBigInt = false → RangeWithin inclusive d (x + d) e →
      -9007199254740992 ≤ x + d ∧ x + d ≤ 9007199254740992) :
    ∃ s', run program (rangeCandidateStatements current step last inclusive candidateResult
        inRangeResult counterIsBigInt stepIsBigInt tempCounter).1 s = some s' ∧
      s'.vars = fun other =>
        if RangeWithin inclusive d (x + d) e ∧ other = candidateResult.localId then
          some (represent counterIsBigInt (x + d))
        else if other = inRangeResult.localId then
          some (.boolean (decide (RangeWithin inclusive d (x + d) e)))
        else s.vars other := by
  obtain ⟨s₁, names, hnames, hrun, hvars, hx, hd, he, hstems⟩ :=
    run_rangeOperands program tempCounter hcurrent hstep hlast
  have hcounter : counterIsBigInt = true → (counterIsBigInt || stepIsBigInt) = true := by
    intro hc
    rw [hc, Bool.true_or]
  obtain ⟨s', hdecision, hfinal⟩ := run_rangeDecision program (tempCounter + 3)
    (tempCounter + 4) candidateResult inRangeResult hstems hx hd he hcounter hsum hnarrow
  refine ⟨s', ?_, ?_⟩
  · simp only [rangeCandidateStatements, run_append, hrun, Option.bind_some, hnames]
    exact hdecision
  · rw [hfinal, hvars]

end Runs

end Moth.Js
