import Moth.Datatypes.NumericScalar
import Moth.Lib.WorkStack
import Moth.Symbols.PathInterner

/-!
# The constant folder's walk

`fold_walk` of `ast/const_eval/mod.rs` with `enter`, `enter_cast`, `complete`
and `complete_cast`: an expression is folded on a stack of steps above a stack
of result slots. Entering an expression settles it or parks it beneath the
children that its completion reads.

What one operation computes from its operands is a parameter, `FoldServices`:
the numeric, text and cast evaluators, the staged constants they read and
write, and the provenance that a stored constant carries. Of an expression row
stands what the walk itself reads; whatever else an evaluator reads of it, it
finds by the expression's id.
-/

namespace Moth.ConstEval

open Moth.Datatypes Moth.Lib Moth.Symbols

/-! ## Expressions -/

structure ExprId where
  index : Nat
deriving DecidableEq

structure ConstValueId where
  index : Nat
deriving DecidableEq

structure ExternalFunctionId where
  index : Nat
deriving DecidableEq

inductive SuccessShape where
  | Zero
  | One (typeId : TypeId)
  | Multiple (typeIds : List TypeId)
deriving DecidableEq

structure ResolvedNumericOperation where
  operator : NumericOperator
  domain : NumericScalar
deriving DecidableEq

inductive ResolvedOperationKind where
  | Numeric (operation : ResolvedNumericOperation)
  | Comparison
  | Range (domain : NumericScalar)
  | NonNumeric
deriving DecidableEq

structure ResolvedOperation where
  kind : ResolvedOperationKind
deriving DecidableEq

/-- Whether this operation is `Dec` exponentiation, whose right operand is an `I32` exponent. -/
def ResolvedOperation.isDecPower (facts : ResolvedOperation) : Bool :=
  match facts.kind with
  | .Numeric ⟨.Power, .Number _⟩ => true
  | _ => false

inductive LogicalOperator where
  | And
  | Or
deriving DecidableEq

inductive ResolvedCallableTarget where
  | Function (path : PathId)
  | Host (function : ExternalFunctionId)
deriving DecidableEq

structure CallView where
  target : ResolvedCallableTarget
  arguments : List ExprId
  /-- Whether the call handles its own failure. -/
  handling : Bool
  errorType : Option TypeId
deriving DecidableEq

def CallView.isHost (call : CallView) : Bool :=
  match call.target with
  | .Host _ => true
  | .Function _ => false

inductive ResolvedCastEvidence (Policy : Type) where
  | Builtin (policy : Policy)
  | UserDefined
  | GenericBound

structure CastFacts (Policy : Type) where
  sourceTypeId : TypeId
  targetTypeId : TypeId
  requiresOptionalWrapAfterCast : Bool
  evidence : ResolvedCastEvidence Policy

inductive CoercionOperation where
  | ToType (target : TypeId)
deriving DecidableEq

structure ConstructorField where
  name : PathId
  value : ExprId
deriving DecidableEq

structure MapEntry where
  key : ExprId
  value : ExprId
deriving DecidableEq

/-- A block that produces a value, with the expressions it retains. -/
inductive ValueBlock where
  | If (expressions : List ExprId)
  | LexicalScope (expressions : List ExprId)
  | Match (expressions : List ExprId)
  /-- The expressions after the handled value are those of the handler's body, if there is one. -/
  | Catch (handledValue : ExprId) (handler : Bool) (expressions : List ExprId)
deriving DecidableEq

inductive ExpressionOperation (Policy : Type) where
  | Constant (id : ConstValueId)
  | Reference (path : PathId)
  | Copy (indices : List ExprId)
  | FieldAccess (base : ExprId)
  | NumericUnary (operand : ExprId) (facts : ResolvedOperation)
  | NumericBinary (left right : ExprId) (facts : ResolvedOperation)
  | LogicalNot (operand : ExprId)
  | LogicalBinary (left right : ExprId) (operation : LogicalOperator)
  | Compare (left right : ExprId) (facts : ResolvedOperation)
  | Range (start end' : ExprId)
  | Call (call : CallView)
  | MethodCall (receiver : ExprId) (call : CallView)
  | CollectionBuiltin (receiver : ExprId) (arguments : List ExprId)
  | MapBuiltin (receiver : ExprId) (arguments : List ExprId)
  | Cast (source : ExprId) (facts : CastFacts Policy)
  | HandleFallible (value : ExprId)
  | PropagateOption (value : ExprId)
  | Coerce (value : ExprId) (operation : CoercionOperation)
  | Collection (items : List ExprId)
  | Map (entries : List MapEntry)
  | Struct (fields : List ConstructorField)
  | Choice (tag : Nat) (fields : List ConstructorField)
  | RouteConstruct (fields : List ConstructorField)
  | ValueBlock (block : ValueBlock)
  | RuntimeTemplate (expressions : List ExprId)
  | RuntimeSlotApplication (expressions : List ExprId)
  | Template

/-- `visit_children`: the edges of an operation in authored order. -/
def ExpressionOperation.children {Policy : Type} : ExpressionOperation Policy → List ExprId
  | .Constant _ | .Reference _ | .Template => []
  | .Copy indices => indices
  | .FieldAccess base => [base]
  | .NumericUnary operand _ | .LogicalNot operand => [operand]
  | .NumericBinary left right _ | .Compare left right _ | .LogicalBinary left right _
  | .Range left right => [left, right]
  | .Call call => call.arguments
  | .MethodCall receiver call => receiver :: call.arguments
  | .CollectionBuiltin receiver arguments | .MapBuiltin receiver arguments =>
      receiver :: arguments
  | .Cast value _ | .HandleFallible value | .PropagateOption value | .Coerce value _ => [value]
  | .Collection items => items
  | .Map entries => entries.flatMap fun entry => [entry.key, entry.value]
  | .Struct fields | .Choice _ fields | .RouteConstruct fields =>
      fields.map ConstructorField.value
  | .ValueBlock (.If expressions) | .ValueBlock (.LexicalScope expressions)
  | .ValueBlock (.Match expressions) => expressions
  | .ValueBlock (.Catch handledValue _ expressions) => handledValue :: expressions
  | .RuntimeTemplate expressions | .RuntimeSlotApplication expressions => expressions

structure ExpressionRow (Policy : Type) where
  success : SuccessShape
  operation : ExpressionOperation Policy

/-- Rows whose edges lead to rows of lower rank. -/
structure ExpressionStore (Policy : Type) where
  rows : ExprId → Option (ExpressionRow Policy)
  rank : ExprId → Nat
  edges : ∀ (id : ExprId) (row : ExpressionRow Policy), rows id = some row →
    ∀ child ∈ row.operation.children, (rows child).isSome ∧ rank child < rank id

/-! ## Folded values -/

structure ConstValueField where
  name : PathId
  value : ConstValueId
deriving DecidableEq

/-- A payload. The kinds that the walk itself neither builds nor reads are leaves. -/
inductive ConstValuePayload (Leaf : Type) where
  | Bool (value : Bool)
  | Collection (values : List ConstValueId)
  | Record (fields : List ConstValueField)
  | Choice (nominalPath : PathId) (tag : Nat) (fields : List ConstValueField)
  | Range (start end' : ConstValueId)
  | Coerced (value : ConstValueId)
  | OptionSome (value : ConstValueId)
  | Leaf (leaf : Leaf)

inductive ConstValueKind where
  | Literal
  | Composite
deriving DecidableEq

inductive InvalidCastReason where
  | BuiltinEvidenceNotConstFoldable
  | UserDefinedEvidenceNotConstFoldable
  | GenericBoundEvidenceNotConstFoldable
deriving DecidableEq

/-- A failed fold: what an evaluator reported, or an internal failure of the walk. -/
inductive FoldFailure (ε : Type) where
  | evaluation (error : ε)
  | outsideOwner
  | constantTypeMismatch
  | bindingTypeMismatch
  | nonSingleProducer
  | compositeBoundary
  | lostChoiceType
  | choiceIdentity
  | unexpectedChildCount
  | lostArgumentSlot
  | missingSuccessSlot
  | lostCastOperands
  | exponentDepthOverflow
  | exponentDepthUnderflow
  | missingRootResult
deriving DecidableEq

def FoldFailure.message {ε : Type} : FoldFailure ε → Option String
  | .evaluation _ => none
  | .outsideOwner => some "expression ID outside owner"
  | .constantTypeMismatch => some "Constant expression disagrees with content type."
  | .bindingTypeMismatch => some "Constant binding disagrees with reference type."
  | .nonSingleProducer => some "single value type requested from non-single producer"
  | .compositeBoundary =>
      some "Composite constant folding requires a constant content boundary."
  | .lostChoiceType => some "Folded choice lost its success type."
  | .choiceIdentity => some "Folded choice has no canonical nominal identity."
  | .unexpectedChildCount => some "Constant fold walk settled an unexpected child count."
  | .lostArgumentSlot => some "External call completion lost an argument result slot."
  | .missingSuccessSlot =>
      some "Trusted Core Text call did not materialise its one success slot."
  | .lostCastOperands => some "Cast completion lost its cast operands."
  | .exponentDepthOverflow => some "Dec power exponent nesting depth overflowed its counter."
  | .exponentDepthUnderflow =>
      some "Dec power exponent context ended without a matching entry."
  | .missingRootResult => some "Constant fold walk finished without a root result."

/-! ## Services -/

inductive FoldRequirement where
  | Required
  | Opportunistic
deriving DecidableEq

/-- What composite folds read of the type environment. -/
structure ContentTypes where
  optionInnerType : TypeId → Option TypeId
  nominalPath : TypeId → Option PathId

inductive FoldBoundary where
  | Runtime (requirement : FoldRequirement)
  | Content (types : ContentTypes) (requirement : FoldRequirement)

def FoldBoundary.requirement : FoldBoundary → FoldRequirement
  | .Runtime requirement => requirement
  | .Content _ requirement => requirement

def FoldBoundary.foldsComposites : FoldBoundary → Bool
  | .Runtime _ => false
  | .Content _ _ => true

/-- What the operations compute, over the staged constants, strings and refusal `Ctx`. -/
structure FoldServices (Ctx ε Leaf Policy TextOp : Type) where
  metadataTypeId : Ctx → ConstValueId → Option TypeId
  payload : Ctx → ConstValueId → Option (ConstValuePayload Leaf)
  withOccurrenceProvenance : ExprId → ConstValueId → Staged Ctx ε ConstValueId
  lookup : PathId → Staged Ctx ε (Option ConstValueId)
  insertValue : ExprId → ConstValuePayload Leaf → ConstValueKind → Staged Ctx ε ConstValueId
  /-- `numeric_negation_payload` with its failure labelled, inside an exponent or not. -/
  numericNegationPayload : ExprId → ResolvedOperation → ConstValueId → Bool →
    Staged Ctx ε (ConstValuePayload Leaf)
  /-- `binary_payload` with its failure labelled; no payload where it did not fold or refused. -/
  binaryPayload : ExprId → ResolvedOperation → ConstValueId → ConstValueId → Bool →
    Staged Ctx ε (Option (ConstValuePayload Leaf))
  /-- The constant operation that the registry holds for a host function. -/
  constEval : ExternalFunctionId → Option TextOp
  /-- The slots of a settled call; none where it refused. -/
  settleExternalCall : TextOp → ExprId → List (Option ConstValueId) →
    Staged Ctx ε (Option (List ConstValueId))
  isConstFoldable : Policy → Bool
  invalidCast : InvalidCastReason → ExprId → CastFacts Policy → ε
  castComplete : ExprId → ExprId → CastFacts Policy → Policy → ConstValueId →
    Staged Ctx ε (Option ConstValueId)

structure FoldState (Ctx : Type) where
  ctx : Ctx
  /-- Nesting depth inside the right operand of a `Dec` power, a `u32`. -/
  decPowerExponentDepth : Nat

abbrev FoldM (Ctx ε α : Type) : Type := Staged (FoldState Ctx) (FoldFailure ε) α

section Walk

variable {Ctx ε Leaf Policy TextOp α : Type}

/-- An evaluator's computation, which leaves the depth alone. -/
def evaluated (x : Staged Ctx ε α) : FoldM Ctx ε α := fun s =>
  match x.runFrom s.ctx with
  | (.ok a, ctx) => (.ok a, { s with ctx })
  | (.error e, ctx) => (.error (.evaluation e), { s with ctx })

def readCtx (f : Ctx → α) : FoldM Ctx ε α := fun s => (.ok (f s.ctx), s)

def insideExponent : FoldM Ctx ε Bool := fun s => (.ok (0 < s.decPowerExponentDepth), s)

def enterDecPowerExponent : FoldM Ctx ε Unit := fun s =>
  if s.decPowerExponentDepth + 1 < 4294967296 then
    (.ok (), { s with decPowerExponentDepth := s.decPowerExponentDepth + 1 })
  else (.error .exponentDepthOverflow, s)

def leaveDecPowerExponent : FoldM Ctx ε Unit := fun s =>
  match s.decPowerExponentDepth with
  | 0 => (.error .exponentDepthUnderflow, s)
  | depth + 1 => (.ok (), { s with decPowerExponentDepth := depth })

/-! ## Steps -/

inductive FoldStep (Policy : Type) where
  | Enter (expression : ExprId)
  | Complete (expression : ExprId) (base : Nat)
  | CompleteCast (expression : ExprId) (base : Nat) (policy : Policy)
  | EnterDecPowerExponent
  | LeaveDecPowerExponent

/-- Entry settles an expression, or pushes steps. They are listed from the top down. -/
inductive FoldEntry (Policy : Type) where
  | Settled (value : Option ConstValueId)
  | Deferred (pushed : List (FoldStep Policy))

/-- `FoldWalk::defer`: a step parked beneath the entries of children, the first of them on top. -/
def FoldEntry.defer (step : FoldStep Policy) (children : List ExprId) : FoldEntry Policy :=
  .Deferred (children.map FoldStep.Enter ++ [step])

variable (store : ExpressionStore Policy) (boundary : FoldBoundary)
  (services : FoldServices Ctx ε Leaf Policy TextOp)

def view (id : ExprId) : FoldM Ctx ε (ExpressionRow Policy) :=
  match store.rows id with
  | some row => pure row
  | none => throw .outsideOwner

/-- `boundary.types()`. -/
def boundaryTypes : FoldM Ctx ε ContentTypes :=
  match boundary with
  | .Content types _ => pure types
  | .Runtime _ => throw .compositeBoundary

def valueTypeId (id : ExprId) : FoldM Ctx ε TypeId := do
  match (← view store id).success with
  | .One typeId => pure typeId
  | _ => throw .nonSingleProducer

/-- The cast that a fold of the expression completes: the cast itself, or the cast that a
handled `Catch` wraps. -/
def castOperands (row : ExpressionRow Policy) :
    FoldM Ctx ε (Option (ExprId × CastFacts Policy)) :=
  match row.operation with
  | .Cast source facts => pure (some (source, facts))
  | .ValueBlock (.Catch handledValue true _) => do
      match (← view store handledValue).operation with
      | .Cast source facts => pure (some (source, facts))
      | _ => pure none
  | _ => pure none

def castPolicy (original : ExprId) (facts : CastFacts Policy) : FoldM Ctx ε (Option Policy) :=
  let refuse (reason : InvalidCastReason) : FoldM Ctx ε (Option Policy) :=
    if boundary.requirement = .Opportunistic then pure none
    else throw (.evaluation (services.invalidCast reason original facts))
  match facts.evidence with
  | .Builtin policy =>
      if services.isConstFoldable policy then pure (some policy)
      else refuse .BuiltinEvidenceNotConstFoldable
  | .UserDefined => refuse .UserDefinedEvidenceNotConstFoldable
  | .GenericBound => refuse .GenericBoundEvidenceNotConstFoldable

def registeredExternalConstEvalOp (call : CallView) : Option TextOp :=
  if call.handling ∨ call.errorType.isSome then none
  else
    match call.target with
    | .Host function => services.constEval function
    | .Function _ => none

/-! ## Completion -/

/-- The value of a folded child. -/
abbrev Slot := Option ConstValueId

def childSlot (children : List Slot) : FoldM Ctx ε Slot :=
  match children with
  | [value] => pure value
  | _ => throw .unexpectedChildCount

def childSlots (children : List Slot) : FoldM Ctx ε (Slot × Slot) :=
  match children with
  | [left, right] => pure (left, right)
  | _ => throw .unexpectedChildCount

def recordFields (fields : List ConstructorField) (children : List Slot) :
    Option (List ConstValueField) :=
  (fields.zip children).mapM fun row => row.2.map fun value => ⟨row.1.name, value⟩

def insert (expression : ExprId) (payload : ConstValuePayload Leaf) (kind : ConstValueKind) :
    FoldM Ctx ε Slot := do
  pure (some (← evaluated (services.insertValue expression payload kind)))

/-- The truth value of a folded operand. -/
def boolOperand (value : ConstValueId) : FoldM Ctx ε (Option Bool) := do
  match ← readCtx fun ctx => services.payload ctx value with
  | some (.Bool value) => pure (some value)
  | _ => pure none

/-- Combine the settled children of an expression. -/
def complete (expression : ExprId) (row : ExpressionRow Policy) (children : List Slot) :
    FoldM Ctx ε Slot :=
  match row.operation with
  | .NumericUnary _ facts => do
      match ← childSlot children with
      | none => pure none
      | some value => do
          let payload ← evaluated
            (services.numericNegationPayload expression facts value (← insideExponent))
          insert services expression payload .Literal
  | .LogicalNot _ => do
      match ← childSlot children with
      | none => pure none
      | some operand => do
          match ← boolOperand services operand with
          | none => pure none
          | some value => insert services expression (.Bool !value) .Literal
  | .NumericBinary _ _ facts | .Compare _ _ facts => do
      match ← childSlots children with
      | (some left, some right) => do
          match ← evaluated
            (services.binaryPayload expression facts left right (← insideExponent)) with
          | none => pure none
          | some payload => insert services expression payload .Literal
      | _ => pure none
  | .LogicalBinary _ _ operation => do
      match ← childSlots children with
      | (some left, some right) => do
          match ← boolOperand services left, ← boolOperand services right with
          | some left, some right =>
              let value := match operation with
                | .And => left && right
                | .Or => left || right
              insert services expression (.Bool value) .Literal
          | _, _ => pure none
      | _ => pure none
  | .Call call =>
      match registeredExternalConstEvalOp services call with
      | none => pure none
      | some operation => do
          if children.length ≠ call.arguments.length then throw .lostArgumentSlot
          else if children.any Option.isNone then pure none
          else
            match ← evaluated (services.settleExternalCall operation expression children) with
            | none => pure none
            | some [value] => pure (some value)
            | some _ => throw .missingSuccessSlot
  | .Range _ _ =>
      if boundary.foldsComposites then do
        match ← childSlots children with
        | (some start, some end') => insert services expression (.Range start end') .Composite
        | _ => pure none
      else pure none
  | .Coerce source (.ToType target) =>
      if boundary.foldsComposites then do
        let types ← boundaryTypes boundary
        let sourceType ← valueTypeId store source
        match ← childSlot children with
        | none => pure none
        | some value =>
            if types.optionInnerType target = some sourceType then
              insert services expression (.OptionSome value) .Composite
            else insert services expression (.Coerced value) .Composite
      else pure none
  | .Collection _ =>
      if boundary.foldsComposites then
        match children.mapM id with
        | none => pure none
        | some values => insert services expression (.Collection values) .Composite
      else pure none
  | .Struct fields =>
      if boundary.foldsComposites then
        match recordFields fields children with
        | none => pure none
        | some fields => insert services expression (.Record fields) .Composite
      else pure none
  | .Choice tag fields =>
      if boundary.foldsComposites then do
        let types ← boundaryTypes boundary
        match row.success with
        | .One typeId =>
            match recordFields fields children with
            | none => pure none
            | some fields =>
                match types.nominalPath typeId with
                | none => throw .choiceIdentity
                | some nominalPath =>
                    insert services expression (.Choice nominalPath tag fields) .Composite
        | _ => throw .lostChoiceType
      else pure none
  | _ => pure none

/-- Complete a cast once its source has settled. -/
def completeCast (expression : ExprId) (row : ExpressionRow Policy) (policy : Policy)
    (children : List Slot) : FoldM Ctx ε Slot := do
  match ← childSlot children with
  | none => pure none
  | some value => do
      match ← castOperands store row with
      | none => throw .lostCastOperands
      | some (source, facts) =>
          evaluated (services.castComplete expression source facts policy value)

/-! ## Entry -/

/-- A stored constant where an expression uses it. -/
def constantOccurrence (expression : ExprId) (typeId : TypeId) (value : ConstValueId)
    (mismatch : FoldFailure ε) : FoldM Ctx ε Slot := do
  if (← readCtx fun ctx => services.metadataTypeId ctx value) ≠ some typeId then throw mismatch
  else pure (some (← evaluated (services.withOccurrenceProvenance expression value)))

/-- A reference to a constant binding, or to nothing the fold knows. -/
def referenceOccurrence (expression : ExprId) (typeId : TypeId) (path : PathId) :
    FoldM Ctx ε Slot := do
  match ← evaluated (services.lookup path) with
  | none => pure none
  | some value => constantOccurrence services expression typeId value .bindingTypeMismatch

def enterCast (base : Nat) (expression : ExprId) (row : ExpressionRow Policy) :
    FoldM Ctx ε (FoldEntry Policy) := do
  match ← castOperands store row with
  | none => pure (.Settled none)
  | some (source, facts) => do
      match ← castPolicy boundary services expression facts with
      | none => pure (.Settled none)
      | some policy => pure (.defer (.CompleteCast expression base policy) [source])

/-- Settle one expression, or park it beneath the children that its completion combines. -/
def enter (base : Nat) (expression : ExprId) (row : ExpressionRow Policy) :
    FoldM Ctx ε (FoldEntry Policy) :=
  match row.success with
  | .Zero | .Multiple _ => pure (.Settled none)
  | .One typeId =>
      match row.operation with
      | .Constant value => do
          let value ←
            constantOccurrence services expression typeId value .constantTypeMismatch
          pure (.Settled value)
      | .Reference path => do
          let value ← referenceOccurrence services expression typeId path
          pure (.Settled value)
      | .NumericUnary operand _ | .LogicalNot operand =>
          pure (.defer (.Complete expression base) [operand])
      | .NumericBinary left right facts =>
          if facts.isDecPower then
            pure (.Deferred [.Enter left, .EnterDecPowerExponent, .Enter right,
              .LeaveDecPowerExponent, .Complete expression base])
          else pure (.defer (.Complete expression base) [left, right])
      | .Compare left right _ | .LogicalBinary left right _ =>
          pure (.defer (.Complete expression base) [left, right])
      | .Call call =>
          if call.isHost ∧ call.handling = false ∧ call.errorType = none then
            pure (.defer (.Complete expression base) call.arguments)
          else enterRuntime base expression row
      | .Range start end' =>
          if boundary.foldsComposites then
            pure (.defer (.Complete expression base) [start, end'])
          else enterRuntime base expression row
      | .Coerce value (.ToType _) =>
          if boundary.foldsComposites then do
            let _ ← boundaryTypes boundary
            let _ ← valueTypeId store value
            pure (.defer (.Complete expression base) [value])
          else enterRuntime base expression row
      | .Collection items =>
          if boundary.foldsComposites then pure (.defer (.Complete expression base) items)
          else enterRuntime base expression row
      | .Struct fields =>
          if boundary.foldsComposites then
            pure (.defer (.Complete expression base) (fields.map ConstructorField.value))
          else enterRuntime base expression row
      | .Choice _ fields =>
          if boundary.foldsComposites then do
            let _ ← boundaryTypes boundary
            pure (.defer (.Complete expression base) (fields.map ConstructorField.value))
          else enterRuntime base expression row
      | .Cast _ _ | .ValueBlock (.Catch _ true _) =>
          enterCast store boundary services base expression row
      | .HandleFallible value => pure (.Deferred [.Enter value])
      | _ => enterRuntime base expression row
where
  /-- A parent that runs. Its children are entered, since they may still fail. -/
  enterRuntime (base : Nat) (expression : ExprId) (row : ExpressionRow Policy) :
      FoldM Ctx ε (FoldEntry Policy) :=
    if row.operation.children = [] then do
      pure (.Settled (← complete store boundary services expression row []))
    else pure (.defer (.Complete expression base) row.operation.children)

/-! ## The loop -/

/-- One turn of the loop: the steps it pushes and the results it leaves. -/
def foldStep (step : FoldStep Policy) (results : List Slot) :
    FoldM Ctx ε (List (FoldStep Policy) × List Slot) :=
  match step with
  | .Enter id => do
      let row ← view store id
      match ← enter store boundary services results.length id row with
      | .Settled value => pure ([], results ++ [value])
      | .Deferred pushed => pure (pushed, results)
  | .Complete expression base => do
      let row ← view store expression
      let value ← complete store boundary services expression row (results.drop base)
      pure ([], results.take base ++ [value])
  | .CompleteCast expression base policy => do
      let row ← view store expression
      let value ← completeCast store services expression row policy (results.drop base)
      pure ([], results.take base ++ [value])
  | .EnterDecPowerExponent => do
      enterDecPowerExponent
      pure ([], results)
  | .LeaveDecPowerExponent => do
      leaveDecPowerExponent
      pure ([], results)

/-- What the loop's outcome is for the root. -/
def rootResult (out : Except (FoldFailure ε) (List Slot) × FoldState Ctx) :
    Except (FoldFailure ε) Slot × FoldState Ctx :=
  match out with
  | (.ok results, s) =>
      match results.getLast? with
      | some value => (.ok value, s)
      | none => (.error .missingRootResult, s)
  | (.error e, s) => (.error e, s)

/-- Fold `root` and every expression it reaches, in at most `fuel` turns of the loop. -/
def foldWalk (fuel : Nat) (root : ExprId) (s : FoldState Ctx) :
    Option (Except (FoldFailure ε) Slot × FoldState Ctx) :=
  let entry : FoldM Ctx ε (FoldEntry Policy) := do
    let row ← view store root
    enter store boundary services 0 root row
  match entry.runFrom s with
  | (.error e, s) => some (.error e, s)
  | (.ok (.Settled value), s) => some (.ok value, s)
  | (.ok (.Deferred pushed), s) =>
      (runSteps (foldStep store boundary services) fuel pushed [] s).map rootResult

end Walk

end Moth.ConstEval
