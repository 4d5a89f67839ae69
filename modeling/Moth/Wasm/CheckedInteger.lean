import Moth.Wasm.Lir

/-!
# Checked integer operations in Wasm

`lower_checked_integer_operation` of `hir_to_lir/stmt.rs` and the whole of
`emit/checked_integer.rs`: trap-mode integer arithmetic over a signed or
unsigned, 32 or 64 bit domain, with an `unreachable` behind every predicate of
a runtime check.

The emission functions append to the function body; here each returns what it
appends, over the local indices that `emitCheckedIntegerOperation` resolved
first.
-/

namespace Moth.Wasm

open Moth.Lexical Moth.Datatypes Moth.Hir Moth.Lib Moth.Lib.Wasm

/-- Integer operation domain, separate from scalar storage layout. -/
inductive WasmIntegerOperationKind where
  | Signed32 | Unsigned32 | Signed64 | Unsigned64
deriving DecidableEq

namespace WasmIntegerOperationKind

def carrier : WasmIntegerOperationKind → Carrier
  | .Signed32 | .Unsigned32 => .I32
  | .Signed64 | .Unsigned64 => .I64

def isSigned : WasmIntegerOperationKind → Bool
  | .Signed32 | .Signed64 => true
  | .Unsigned32 | .Unsigned64 => false

def is32Bit : WasmIntegerOperationKind → Bool
  | .Signed32 | .Unsigned32 => true
  | .Signed64 | .Unsigned64 => false

def signedBounds : WasmIntegerOperationKind → Option (Int × Int)
  | .Signed32 => some (-2147483648, 2147483647)
  | .Signed64 => some (-9223372036854775808, 9223372036854775807)
  | .Unsigned32 | .Unsigned64 => none

end WasmIntegerOperationKind

inductive WasmNumericOperationOperands (α : Type) where
  | Unary (operand : α)
  | Binary (left right : α)
deriving DecidableEq

structure WasmIntegerPowerScratch (α : Type) where
  factor : α
  exponent : α
deriving DecidableEq

/-- Non-aliasing intermediate locals allocated only when the operation needs them. -/
structure WasmIntegerScratch (α : Type) where
  product : Option α
  power : Option (WasmIntegerPowerScratch α)
deriving DecidableEq

inductive IntegerCheckMode where
  | Runtime
  | ProvenSafe
deriving DecidableEq

/-- One checked integer operation's coherent target payload. -/
structure WasmCheckedIntegerOperation where
  dst : WasmLirLocalId
  operator : NumericOperator
  kind : WasmIntegerOperationKind
  checkMode : IntegerCheckMode
  operands : WasmNumericOperationOperands WasmLirLocalId
  scratch : WasmIntegerScratch WasmLirLocalId

/-- The statements this lowering produces. -/
inductive WasmIntegerStmt where
  | CheckedIntegerOp (operation : WasmCheckedIntegerOperation)
  | Copy (dst src : WasmLirLocalId)

/-! ## Lowering -/

/-- The LIR kind of a checked-integer domain; narrower fixed integers have no
checked path. -/
def integerOperationKind (domain : NumericScalar) :
    Except InfrastructureFailure WasmIntegerOperationKind :=
  match domain with
  | .Fixed .I32 => .ok .Signed32
  | .Fixed .U32 => .ok .Unsigned32
  | .Fixed .I64 => .ok .Signed64
  | .Fixed .U64 => .ok .Unsigned64
  | _ => .error (.compilerBug "Wasm checked integer lowering does not implement the exact domain")

/-- The operator has the shape of the operands. -/
def operandShapeOk {α : Type} (operator : NumericOperator)
    (operands : WasmNumericOperationOperands α) : Bool :=
  match operator, operands with
  | .Negate, .Unary _ => true
  | .Add, .Binary _ _ | .Subtract, .Binary _ _ | .Multiply, .Binary _ _
  | .IntegerDivide, .Binary _ _ | .Remainder, .Binary _ _ | .Power, .Binary _ _ => true
  | _, _ => false

def aliasesOperand {α : Type} [DecidableEq α] (destination : α)
    (operands : WasmNumericOperationOperands α) : Bool :=
  match operands with
  | .Unary operand => destination = operand
  | .Binary left right => destination = left ∨ destination = right

/-- The scratch locals an operation needs, and the function they were allocated in. -/
def allocIntegerScratch (context : WasmFunctionLoweringContext) (operator : NumericOperator)
    (kind : WasmIntegerOperationKind) (checkMode : IntegerCheckMode) :
    WasmIntegerScratch WasmLirLocalId × WasmFunctionLoweringContext :=
  let needsProduct := kind.is32Bit ∧
    (operator = .Power ∨ operator = .Multiply ∧ checkMode = .Runtime)
  let (product, context) :=
    if needsProduct then
      let (product, context) := context.allocTemp .I64
      (some product, context)
    else (none, context)
  if operator = .Power then
    let (factor, context) := context.allocTemp (abiOf kind.carrier)
    let (exponent, context) := context.allocTemp (abiOf kind.carrier)
    (⟨product, some ⟨factor, exponent⟩⟩, context)
  else (⟨product, none⟩, context)

/-- The statements of a checked operation whose operands are already in locals.
`provenSafe` is the numeric proof table's answer for the statement. -/
def lowerCheckedIntegerOperation (context : WasmFunctionLoweringContext) (op : HirNumericOp)
    (provenSafe : Bool) (operands : WasmNumericOperationOperands WasmLirLocalId)
    (result : LocalId) :
    Except InfrastructureFailure (List WasmIntegerStmt × WasmFunctionLoweringContext) := do
  let kind ← integerOperationKind op.domain
  let checkMode : IntegerCheckMode := if provenSafe then .ProvenSafe else .Runtime
  if !operandShapeOk op.operator operands then
    .error (.compilerBug "Wasm lowering received invalid integer numeric operands")
  else
    match context.localMap result with
    | none => .error (.unresolvedLocal "numeric result" result)
    | some destination =>
        if context.localTypeById destination ≠ some (abiOf kind.carrier) then
          .error (.lirTransformation "Wasm lowering expected another numeric result carrier")
        else
          -- A runtime check keeps an operand's old value available to its predicates.
          let (operationDestination, context) :=
            if aliasesOperand destination operands ∧ checkMode = .Runtime then
              context.allocTemp (abiOf kind.carrier)
            else (destination, context)
          let (scratch, context) := allocIntegerScratch context op.operator kind checkMode
          let operation := WasmIntegerStmt.CheckedIntegerOp
            { dst := operationDestination, operator := op.operator, kind, checkMode, operands,
              scratch }
          .ok (if operationDestination ≠ destination then
              [operation, .Copy destination operationDestination]
            else [operation], context)

/-! ## Emission -/

section Emission

variable {ι : Type}

inductive SignedRelation where
  | LessThan
  | GreaterThan
deriving DecidableEq

/-- The native instruction of an operator, which none of the others has. -/
def integerOpcode (kind : WasmIntegerOperationKind) (operator : NumericOperator) :
    Except InfrastructureFailure BinaryOp :=
  match operator with
  | .Add => .ok .add
  | .Subtract => .ok .sub
  | .Multiply => .ok .mul
  | .IntegerDivide => .ok (if kind.isSigned then .divS else .divU)
  | .Remainder => .ok (if kind.isSigned then .remS else .remU)
  | .Divide | .Power | .Negate =>
      .error (.wasmGeneration "Wasm checked integer opcode does not support the operator")

def emitIntegerConstant (kind : WasmIntegerOperationKind) (value : Int) : Instr ι :=
  .const kind.carrier (BitVec.ofInt kind.carrier.bits value)

def emitUnreachableIfTrue : List (Instr ι) := [.ite [.unreachable] []]

def emitNativeIntegerBinary (left right : Nat) (kind : WasmIntegerOperationKind)
    (operator : NumericOperator) : Except InfrastructureFailure (List (Instr ι)) := do
  let opcode ← integerOpcode kind operator
  .ok [.localGet left, .localGet right, .binary kind.carrier opcode]

def emitSignedRelationOpcode (kind : WasmIntegerOperationKind) (relation : SignedRelation) :
    Instr ι :=
  .relation kind.carrier
    (match relation with
    | .LessThan => .ltS
    | .GreaterThan => .gtS)

def emitSignedLocalRelation (index : Nat) (kind : WasmIntegerOperationKind)
    (relation : SignedRelation) : List (Instr ι) :=
  [.localGet index, emitIntegerConstant kind 0, emitSignedRelationOpcode kind relation]

def emitLocalEqualsConstant (index : Nat) (kind : WasmIntegerOperationKind) (value : Int) :
    List (Instr ι) :=
  [.localGet index, emitIntegerConstant kind value, .relation kind.carrier .eq]

def emitLocalIsZero (index : Nat) (kind : WasmIntegerOperationKind) : List (Instr ι) :=
  [.localGet index, .eqz kind.carrier]

def emitLocalIsOdd (index : Nat) (kind : WasmIntegerOperationKind) : List (Instr ι) :=
  [.localGet index, emitIntegerConstant kind 1, .binary kind.carrier .and,
    emitIntegerConstant kind 0, .relation kind.carrier .ne]

def emitShiftExponentRight (exponent : Nat) (kind : WasmIntegerOperationKind) :
    List (Instr ι) :=
  [.localGet exponent, emitIntegerConstant kind 1, .binary kind.carrier .shrU,
    .localSet exponent]

/-- The predicate of a checked sum: sign tests, or a wrap compare. -/
def emitAddOverflow (destination left right : Nat) (kind : WasmIntegerOperationKind) :
    List (Instr ι) :=
  if kind.isSigned then
    [.localGet left, .localGet destination, .binary kind.carrier .xor,
      .localGet right, .localGet destination, .binary kind.carrier .xor,
      .binary kind.carrier .and, emitIntegerConstant kind 0, .relation kind.carrier .ltS]
  else [.localGet destination, .localGet left, .relation kind.carrier .ltU]

def emitCheckedAdd (destination left right : Nat) (kind : WasmIntegerOperationKind) :
    Except InfrastructureFailure (List (Instr ι)) := do
  let operation ← emitNativeIntegerBinary left right kind .Add
  .ok (operation ++ [.localSet destination] ++ emitAddOverflow destination left right kind ++
    emitUnreachableIfTrue)

def emitSubtractOverflow (destination left right : Nat) (kind : WasmIntegerOperationKind) :
    List (Instr ι) :=
  if kind.isSigned then
    [.localGet left, .localGet right, .binary kind.carrier .xor,
      .localGet left, .localGet destination, .binary kind.carrier .xor,
      .binary kind.carrier .and, emitIntegerConstant kind 0, .relation kind.carrier .ltS]
  else [.localGet left, .localGet right, .relation kind.carrier .ltU]

def emitCheckedSubtract (destination left right : Nat) (kind : WasmIntegerOperationKind) :
    Except InfrastructureFailure (List (Instr ι)) := do
  let operation ← emitNativeIntegerBinary left right kind .Subtract
  .ok (operation ++ [.localSet destination] ++ emitSubtractOverflow destination left right kind ++
    emitUnreachableIfTrue)

/-- `0 - operand`. -/
def emitNegation (destination operand : Nat) (kind : WasmIntegerOperationKind) :
    Except InfrastructureFailure (List (Instr ι)) := do
  let opcode ← integerOpcode kind .Subtract
  .ok [emitIntegerConstant kind 0, .localGet operand, .binary kind.carrier opcode,
    .localSet destination]

def emitCheckedNegation (destination operand : Nat) (kind : WasmIntegerOperationKind) :
    Except InfrastructureFailure (List (Instr ι)) :=
  match kind.signedBounds with
  | none => .error (.wasmGeneration "Wasm checked negation requires a signed integer domain")
  | some (minimum, _) => do
      let negation ← emitNegation destination operand kind
      .ok (emitLocalEqualsConstant operand kind minimum ++ emitUnreachableIfTrue ++ negation)

def emitProvenSafeNegation (destination operand : Nat) (kind : WasmIntegerOperationKind) :
    Except InfrastructureFailure (List (Instr ι)) :=
  match kind.signedBounds with
  | none =>
      .error (.wasmGeneration "Wasm proven-safe negation requires a signed integer domain")
  | some _ => emitNegation destination operand kind

/-- The minimum divided by -1. -/
def emitDivisionOverflow (left right : Nat) (kind : WasmIntegerOperationKind) :
    List (Instr ι) :=
  match kind.signedBounds with
  | some (minimum, _) =>
      emitLocalEqualsConstant left kind minimum ++ emitLocalEqualsConstant right kind (-1) ++
        [.binary .I32 .and] ++ emitUnreachableIfTrue
  | none => []

def emitCheckedDivision (destination left right : Nat) (kind : WasmIntegerOperationKind) :
    Except InfrastructureFailure (List (Instr ι)) := do
  let operation ← emitNativeIntegerBinary left right kind .IntegerDivide
  .ok (emitLocalIsZero right kind ++ emitUnreachableIfTrue ++
    emitDivisionOverflow left right kind ++ operation ++ [.localSet destination])

def emitCheckedRemainder (destination left right : Nat) (kind : WasmIntegerOperationKind) :
    Except InfrastructureFailure (List (Instr ι)) := do
  let operation ← emitNativeIntegerBinary left right kind .Remainder
  .ok (emitLocalIsZero right kind ++ emitUnreachableIfTrue ++ operation ++ [.localSet destination])

def emitSignedBoundFailure (compared : Nat) (numerator : Int) (denominator : Nat)
    (relation : SignedRelation) : List (Instr ι) :=
  [.localGet compared, emitIntegerConstant .Signed64 numerator, .localGet denominator,
    .binary .I64 .divS, emitSignedRelationOpcode .Signed64 relation] ++ emitUnreachableIfTrue

/-- These sign branches make every quotient denominator nonzero and avoid MIN / -1. -/
def emitSignedMultiplyOverflowCheck (left right : Nat) : List (Instr ι) :=
  let minimum : Int := -9223372036854775808
  let maximum : Int := 9223372036854775807
  emitSignedLocalRelation right .Signed64 .GreaterThan ++
  [.ite
    (emitSignedLocalRelation left .Signed64 .GreaterThan ++
    [.ite
      (emitSignedBoundFailure left maximum right .GreaterThan)
      (emitSignedLocalRelation left .Signed64 .LessThan ++
      [.ite (emitSignedBoundFailure left minimum right .LessThan) []])])
    (emitSignedLocalRelation right .Signed64 .LessThan ++
    [.ite
      (emitSignedLocalRelation left .Signed64 .GreaterThan ++
      [.ite
        (emitSignedBoundFailure right minimum left .LessThan)
        (emitSignedLocalRelation left .Signed64 .LessThan ++
        [.ite (emitSignedBoundFailure right maximum left .LessThan) []])])
      []])]

/-- The quotient test of an unsigned product, skipped for a zero factor. -/
def emitUnsignedMultiplyOverflowCheck (left right : Nat) : List (Instr ι) :=
  emitLocalIsZero left .Unsigned64 ++
  [.eqz .I32,
   .ite
    ([.localGet right, .const .I64 (BitVec.ofInt 64 (-1)), .localGet left, .binary .I64 .divU,
      .relation .I64 .gtU] ++ emitUnreachableIfTrue)
    []]

/-- The range tests of a widened 32-bit product. -/
def emitProductRangeCheck (product : Nat) (signed : Bool) : List (Instr ι) :=
  if signed then
    [.localGet product, .const .I64 (BitVec.ofInt 64 (-2147483648)), .relation .I64 .ltS] ++
      emitUnreachableIfTrue ++
    [.localGet product, .const .I64 (BitVec.ofInt 64 2147483647), .relation .I64 .gtS] ++
      emitUnreachableIfTrue
  else
    [.localGet product, .const .I64 (BitVec.ofInt 64 4294967295), .relation .I64 .gtU] ++
      emitUnreachableIfTrue

def emitCheckedMultiplyInto (destination left right : Nat) (kind : WasmIntegerOperationKind)
    (product : Option Nat) : Except InfrastructureFailure (List (Instr ι)) :=
  match kind with
  | .Signed32 | .Unsigned32 =>
      match product with
      | none => .error (.wasmGeneration
          "Wasm 32-bit multiply is missing its I64 product scratch")
      | some product =>
          let extend : Instr ι := if kind.isSigned then .extendS else .extendU
          .ok ([.localGet left, extend, .localGet right, extend, .binary .I64 .mul,
            .localSet product] ++ emitProductRangeCheck product kind.isSigned ++
            [.localGet product, .wrap, .localSet destination])
  | .Signed64 | .Unsigned64 =>
      match product with
      | some _ => .error (.compilerBug "Wasm 64-bit multiply has unexpected product scratch")
      | none => do
          let operation ← emitNativeIntegerBinary left right kind .Multiply
          .ok ((if kind.isSigned then emitSignedMultiplyOverflowCheck left right
              else emitUnsignedMultiplyOverflowCheck left right) ++
            operation ++ [.localSet destination])

/-- Square and multiply. An unused final factor square must not introduce an
overflow past the result. -/
def emitCheckedPower (destination base sourceExponent : Nat) (kind : WasmIntegerOperationKind)
    (product : Option Nat) (scratch : WasmIntegerPowerScratch Nat) :
    Except InfrastructureFailure (List (Instr ι)) := do
  let accumulate ← emitCheckedMultiplyInto destination destination scratch.factor kind product
  let square ← emitCheckedMultiplyInto scratch.factor scratch.factor scratch.factor kind product
  .ok ((if kind.isSigned then
      emitSignedLocalRelation sourceExponent kind .LessThan ++ emitUnreachableIfTrue
    else []) ++
    [.localGet base, .localSet scratch.factor, .localGet sourceExponent,
      .localSet scratch.exponent, emitIntegerConstant kind 1, .localSet destination,
      .block [.loop (
        emitLocalIsZero scratch.exponent kind ++ [.brIf 1] ++
        emitLocalIsOdd scratch.exponent kind ++ [.ite accumulate []] ++
        emitShiftExponentRight scratch.exponent kind ++
        emitLocalIsZero scratch.exponent kind ++ [.eqz .I32, .ite square []] ++
        [.br 0])]])

/-! The checks of one operation, in their order. -/

def ensureOperandsAbi (operands : WasmNumericOperationOperands WasmLirLocalId)
    (carrier : WasmAbiType) (context : LirBodyEmitContext) : Except InfrastructureFailure Unit :=
  match operands with
  | .Unary operand => ensureLocalAbi operand carrier context "checked integer operand"
  | .Binary left right => do
      ensureLocalAbi left carrier context "checked integer left operand"
      ensureLocalAbi right carrier context "checked integer right operand"

/-- Which product scratch the operation has: a runtime 32-bit multiply or power
needs one, and nothing else may have one. -/
def checkProductScratch (operation : WasmCheckedIntegerOperation)
    (context : LirBodyEmitContext) : Except InfrastructureFailure Unit :=
  let needsProduct := operation.checkMode = .Runtime ∧ operation.kind.is32Bit ∧
    (operation.operator = .Multiply ∨ operation.operator = .Power)
  match operation.scratch.product with
  | some product =>
      if needsProduct then do
        ensureLocalAbi product .I64 context "integer product scratch"
        if product = operation.dst ∨ aliasesOperand product operation.operands then
          .error (.wasmGeneration "Wasm integer product scratch aliases another operation local")
        else .ok ()
      else .error (.wasmGeneration "Wasm integer operation has unexpected product scratch")
  | none =>
      if needsProduct then
        .error (.wasmGeneration
          "Wasm 32-bit multiply or power is missing its I64 product scratch")
      else .ok ()

def checkPowerScratch (operation : WasmCheckedIntegerOperation)
    (context : LirBodyEmitContext) : Except InfrastructureFailure Unit :=
  match operation.scratch.power with
  | none =>
      if operation.operator = .Power then
        .error (.compilerBug "Wasm integer power is missing its loop scratch locals")
      else .ok ()
  | some scratch =>
      if operation.operator ≠ .Power then
        .error (.compilerBug "Wasm non-power operation has unexpected scratch locals")
      else if operation.checkMode ≠ .Runtime then
        .error (.wasmGeneration "Wasm proven-safe integer operation cannot be Power")
      else do
        ensureLocalAbi scratch.factor (abiOf operation.kind.carrier) context
          "integer power factor"
        ensureLocalAbi scratch.exponent (abiOf operation.kind.carrier) context
          "integer power exponent"
        if scratch.factor = scratch.exponent ∨ scratch.factor = operation.dst ∨
            scratch.exponent = operation.dst ∨
            aliasesOperand scratch.factor operation.operands ∨
            aliasesOperand scratch.exponent operation.operands ∨
            operation.scratch.product = some scratch.factor ∨
            operation.scratch.product = some scratch.exponent then
          .error (.wasmGeneration
            "Wasm integer power scratch locals alias another operation local")
        else .ok ()

def checkOperationAliases (operation : WasmCheckedIntegerOperation) :
    Except InfrastructureFailure Unit :=
  if aliasesOperand operation.dst operation.operands then
    if operation.checkMode = .Runtime then
      .error (.wasmGeneration "Wasm checked integer destination aliases a source operand")
    else if operation.operator = .Power then
      .error (.wasmGeneration "Wasm proven-safe integer operation cannot target Power")
    else .ok ()
  else .ok ()

/-- The locals of an operation, resolved. -/
def operandIndices (operands : WasmNumericOperationOperands WasmLirLocalId)
    (context : LirBodyEmitContext) :
    Except InfrastructureFailure (WasmNumericOperationOperands Nat) :=
  match operands with
  | .Unary operand => do
      let operand ← localIndex operand context
      .ok (.Unary operand)
  | .Binary left right => do
      let left ← localIndex left context
      let right ← localIndex right context
      .ok (.Binary left right)

def optionalIndex (localId : Option WasmLirLocalId) (context : LirBodyEmitContext) :
    Except InfrastructureFailure (Option Nat) :=
  match localId with
  | none => .ok none
  | some localId => do
      let index ← localIndex localId context
      .ok (some index)

def scratchIndices (scratch : WasmIntegerScratch WasmLirLocalId)
    (context : LirBodyEmitContext) : Except InfrastructureFailure (WasmIntegerScratch Nat) := do
  let product ← optionalIndex scratch.product context
  match scratch.power with
  | none => .ok ⟨product, none⟩
  | some power => do
      let factor ← localIndex power.factor context
      let exponent ← localIndex power.exponent context
      .ok ⟨product, some ⟨factor, exponent⟩⟩

/-- The sequence of an operation whose checks have passed, over its indices. -/
def integerOperationCode (operator : NumericOperator) (kind : WasmIntegerOperationKind)
    (checkMode : IntegerCheckMode) (destination : Nat)
    (operands : WasmNumericOperationOperands Nat) (scratch : WasmIntegerScratch Nat) :
    Except InfrastructureFailure (List (Instr ι)) :=
  match checkMode with
  | .ProvenSafe =>
      match operator, operands with
      | .Negate, .Unary operand => emitProvenSafeNegation destination operand kind
      | .Add, .Binary left right | .Subtract, .Binary left right
      | .Multiply, .Binary left right | .IntegerDivide, .Binary left right
      | .Remainder, .Binary left right => do
          let operation ← emitNativeIntegerBinary left right kind operator
          .ok (operation ++ [.localSet destination])
      | _, _ => .error (.wasmGeneration
          "Wasm proven-safe integer operation has an unsupported shape")
  | .Runtime =>
      match operator, operands, scratch.power with
      | .Negate, .Unary operand, none => emitCheckedNegation destination operand kind
      | .Add, .Binary left right, none => emitCheckedAdd destination left right kind
      | .Subtract, .Binary left right, none => emitCheckedSubtract destination left right kind
      | .Multiply, .Binary left right, none =>
          emitCheckedMultiplyInto destination left right kind scratch.product
      | .IntegerDivide, .Binary left right, none =>
          emitCheckedDivision destination left right kind
      | .Remainder, .Binary left right, none => emitCheckedRemainder destination left right kind
      | .Power, .Binary left right, some power =>
          emitCheckedPower destination left right kind scratch.product power
      | _, _, _ => .error (.wasmGeneration
          "Wasm checked integer operation has inconsistent scratch locals")

def emitCheckedIntegerOperation (operation : WasmCheckedIntegerOperation)
    (context : LirBodyEmitContext) : Except InfrastructureFailure (List (Instr ι)) := do
  let carrier := abiOf operation.kind.carrier
  ensureLocalAbi operation.dst carrier context "checked integer destination"
  if !operandShapeOk operation.operator operation.operands then
    .error (.wasmGeneration "Wasm checked integer operation has an invalid operand shape")
  else do
    ensureOperandsAbi operation.operands carrier context
    checkOperationAliases operation
    checkProductScratch operation context
    checkPowerScratch operation context
    let destination ← localIndex operation.dst context
    let operands ← operandIndices operation.operands context
    let scratch ← scratchIndices operation.scratch context
    integerOperationCode operation.operator operation.kind operation.checkMode destination
      operands scratch

/-- The two arms of `emit_statement` that this lowering uses. -/
def emitIntegerStmt (statement : WasmIntegerStmt) (context : LirBodyEmitContext) :
    Except InfrastructureFailure (List (Instr ι)) :=
  match statement with
  | .CheckedIntegerOp operation => emitCheckedIntegerOperation operation context
  | .Copy dst src => do
      let src ← localIndex src context
      let dst ← localIndex dst context
      .ok [.localGet src, .localSet dst]

def emitIntegerStmts (statements : List WasmIntegerStmt) (context : LirBodyEmitContext) :
    Except InfrastructureFailure (List (Instr ι)) :=
  match statements with
  | [] => .ok []
  | statement :: rest => do
      let first ← emitIntegerStmt statement context
      let others ← emitIntegerStmts rest context
      .ok (first ++ others)

end Emission

end Moth.Wasm
