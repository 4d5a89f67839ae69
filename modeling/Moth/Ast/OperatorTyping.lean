import Moth.Ast.ExpressionOrdering
import Moth.Lexical.Numeric
import Moth.Lib.WorkStack

/-!
# Operator result types

`ast/expressions/eval_expression/result_type.rs`: the frame loop that types an
indexed postfix list, and `materialize_pending_literal` of `evaluator.rs`,
which it calls for the literals. A literal takes its type from a receiving
destination, from its peer, or from the base of its power, so the children of
an operator are not always typed in order.

Of an expression the builder keeps its success types here. Whether a literal
fits its type, the operator policy, and what an operator records of its numeric
domains are parameters: they answer from what they are given alone.
-/

namespace Moth.Ast.OperatorTyping

open Moth.Ast Moth.ConstEval Moth.Datatypes Moth.Lexical Moth.Lib

inductive PendingLiteralDestination where
  | FixedScalar (scalar : FixedScalar)
  | Number (scale : NumberScale) (typeId : TypeId)
deriving DecidableEq

def PendingLiteralDestination.isNumber : PendingLiteralDestination → Bool
  | .Number _ _ => true
  | .FixedScalar _ => false

def pendingLiteralDestinationForTypeId (typeId : TypeId) (environment : TypeEnvironment) :
    Option PendingLiteralDestination :=
  match environment.numberScale typeId with
  | some scale => some (.Number scale typeId)
  | none => (environment.fixedScalar typeId).map .FixedScalar

def literalKindInitialises (kind : NumericLiteralKind) (scalar : FixedScalar) : Bool :=
  match kind with
  | .WholeNumber => true
  | .DecimalPoint | .Exponent => scalar.scalarClass == .BinaryFloat

/-! ## Items -/

structure NumericLiteralToken where
  kind : NumericLiteralKind
  sign : NumericLiteralSign
  normalizedText : List Char
deriving DecidableEq

structure ResolvedOperation (Span Kind : Type) where
  operator : Operator
  span : Option Span
  resultType : TypeId
  leftType : TypeId
  rightType : Option TypeId
  kind : Kind
deriving DecidableEq

inductive TypedRpnItem (Span Kind : Type) where
  | Operand (expression : ExprId)
  | PendingNumericLiteral (token : NumericLiteralToken) (span : Option Span)
  | GroupOpen (anchorSpan : Option Span)
  | GroupClose (openDistance : Nat) (anchorSpan : Option Span)
  | PendingNumericBinding (span : Option Span)
  | PendingNumericCall (span : Option Span)
  | PendingNumericCast (span : Option Span)
  | PendingNumericExpression (span : Option Span)
  | Operator (operator : Operator) (span : Option Span)
  | ResolvedOperator (operation : ResolvedOperation Span Kind)
deriving DecidableEq

variable {Span Kind E : Type}

/-- The item as ordering and indexing see it. -/
def TypedRpnItem.untyped : TypedRpnItem Span Kind → ExpressionRpnItem Span NumericLiteralToken
  | .Operand expression => .Operand expression
  | .PendingNumericLiteral token span => .PendingNumericLiteral token span
  | .GroupOpen anchorSpan => .GroupOpen anchorSpan
  | .GroupClose openDistance anchorSpan => .GroupClose openDistance anchorSpan
  | .PendingNumericBinding span => .PendingNumericBinding span
  | .PendingNumericCall span => .PendingNumericCall span
  | .PendingNumericCast span => .PendingNumericCast span
  | .PendingNumericExpression span => .PendingNumericExpression span
  | .Operator operator span => .Operator operator span
  | .ResolvedOperator operation => .ResolvedOperator operation.operator operation.span

def TypedRpnItem.isPendingLiteral : TypedRpnItem Span Kind → Bool
  | .PendingNumericLiteral _ _ => true
  | _ => false

/-- What typing is given: the types of the environment, whether a literal fits a
type, the operator policy, and the semantics that a typed operator records. -/
structure TypingServices (Span Kind E : Type) where
  environment : TypeEnvironment
  materializes : NumericLiteralToken → TypeId → Option Span → Except E Unit
  resolveUnaryOperatorType : Operator → TypeId → Option Span → Except E TypeId
  resolveBinaryOperatorType : TypeId → TypeId → Operator → Option Span → Except E TypeId
  operationKind : Operator → Option Span → TypeId → TypeId → Option TypeId → Except E Kind

inductive ResolutionError (E : Type) where
  | pendingExpressionItem
  | indexedOperatorWithoutChildren
  | completedOperatorWithoutChildren
  | lostIndexedOperator
  | consumedUnresolvedChild
  | indexedNonLiteral
  | unknownExpression
  | invalidValueReceiver (expression : ExprId)
  | service (failure : E)
deriving DecidableEq

/-! ## The state of the loop -/

/-- The items, the types recorded for their nodes, the success types of each
expression of the builder, and the positions materialised so far. -/
structure TypingState (Span Kind : Type) where
  items : List (TypedRpnItem Span Kind)
  types : List (Option TypeId)
  expressions : List (List TypeId)
  materialised : List Nat

inductive ResolutionFrame where
  | Visit (index : Nat) (destination : Option PendingLiteralDestination)
  | VisitPeerLiteral (index peer : Nat) (exponentEdge : Bool)
  | VisitCompoundPeer (index peer : Nat) (exponentEdge : Bool)
  | VisitReceiverExponent (base exponent : Nat)
  | CompleteOperator (index : Nat)
deriving DecidableEq

inductive LiteralPeerShape where
  | LoneLiteral (literal peer : Nat)
  | CompoundContextual (compound peer : Nat)
deriving DecidableEq

/-- `view(..)?.require_single(..)?` -/
def requireSingle (expressions : List (List TypeId)) (expression : ExprId) :
    Except (ResolutionError E) TypeId :=
  match expressions[expression.index]? with
  | none => .error .unknownExpression
  | some [typeId] => .ok typeId
  | some _ => .error (.invalidValueReceiver expression)

/-- The type that a literal materialises at. -/
def materialisedType (token : NumericLiteralToken)
    (destination : Option PendingLiteralDestination) : TypeId :=
  let admitted := destination.filter fun destination =>
    match destination with
    | .FixedScalar scalar => literalKindInitialises token.kind scalar
    | .Number _ _ => true
  match admitted with
  | some (.FixedScalar scalar) => fixedScalarTypeId scalar
  | some (.Number _ typeId) => typeId
  | none =>
      if token.kind = .WholeNumber then fixedScalarTypeId .I32 else fixedScalarTypeId .F64

section Loop

variable (services : TypingServices Span Kind E) (nodes : List IndexedExpressionNode)

/-- Writes the operand over the literal and answers its type. -/
def materializePendingLiteral (state : TypingState Span Kind) (index : Nat)
    (destination : Option PendingLiteralDestination) :
    Except (ResolutionError E) (TypeId × TypingState Span Kind) :=
  match state.items[index]? with
  | some (.PendingNumericLiteral token span) => do
      let typeId := materialisedType token destination
      match services.materializes token typeId span with
      | .error failure => .error (.service failure)
      | .ok () =>
          .ok (typeId, { state with
            items := state.items.set index (.Operand ⟨state.expressions.length⟩)
            expressions := state.expressions ++ [[typeId]]
            materialised := state.materialised ++ [index] })
  | _ => .error .indexedNonLiteral

def recordType (state : TypingState Span Kind) (index : Nat) (typeId : TypeId) :
    TypingState Span Kind :=
  { state with types := state.types.set index (some typeId) }

/-- The type of a child. Reading beyond the nodes is a panic. -/
def resolvedType (state : TypingState Span Kind) (index : Nat) :
    Option (Except (ResolutionError E) TypeId) :=
  (state.types[index]?).map fun typeId =>
    match typeId with
    | some typeId => .ok typeId
    | none => .error .consumedUnresolvedChild

def operatorAcceptsPeerLiteral (operator : Operator) : Bool :=
  (match operator.numericOperator with
    | some numericOperator => numericOperator != .Negate
    | none => false) ||
    operator ∈ [Operator.Equality, .NotEqual, .GreaterThan, .GreaterThanOrEqual, .LessThan,
      .LessThanOrEqual]

def literalPeerShape (items : List (TypedRpnItem Span Kind)) (left right : Nat) :
    Option (Option LiteralPeerShape) := do
  let leftItem ← items[left]?
  let rightItem ← items[right]?
  let leftNode ← nodes[left]?
  let rightNode ← nodes[right]?
  if leftItem.isPendingLiteral ≠ rightItem.isPendingLiteral then
    if leftItem.isPendingLiteral then return some (.LoneLiteral left right)
    else return some (.LoneLiteral right left)
  else if leftItem.isPendingLiteral then return none
  else if leftNode.literalOnly ≠ rightNode.literalOnly then
    if leftNode.literalOnly then return some (.CompoundContextual left right)
    else return some (.CompoundContextual right left)
  else return none

/-- The frames of the two children of an operator. -/
def binaryFrames (items : List (TypedRpnItem Span Kind)) (operator : Operator) (left right : Nat)
    (destination : Option PendingLiteralDestination) : Option (List ResolutionFrame) := do
  let exponent := decide (operator = .Exponent)
  let shape ← literalPeerShape nodes items left right
  if destination.isSome ∧ operator.numericOperator.isSome then
    let onDecExponentEdge := exponent && destination.any PendingLiteralDestination.isNumber
    if onDecExponentEdge ∧ shape.isSome then
      return [.Visit left destination, .VisitReceiverExponent left right]
    else
      return [.Visit left destination,
        .Visit right (if onDecExponentEdge then none else destination)]
  else if operatorAcceptsPeerLiteral operator then
    match shape with
    | some (.LoneLiteral literal peer) =>
        return [.Visit peer none,
          .VisitPeerLiteral literal peer (exponent && decide (literal = right))]
    | some (.CompoundContextual compound peer) =>
        return [.Visit peer none,
          .VisitCompoundPeer compound peer (exponent && decide (compound = right))]
    | none => return [.Visit left none, .Visit right none]
  else return [.Visit left none, .Visit right none]

def visitOperator (operator : Operator) (index : Nat)
    (destination : Option PendingLiteralDestination) (state : TypingState Span Kind) :
    Option (Except (ResolutionError E) (List ResolutionFrame × TypingState Span Kind)) :=
  match nodes[index]? with
  | none => none
  | some node =>
      match node.children with
      | .Unary child =>
          some (.ok ([.Visit child (if operator = .Negate then destination else none),
            .CompleteOperator index], state))
      | .Binary left right =>
          (binaryFrames nodes state.items operator left right destination).map fun frames =>
            .ok (frames ++ [.CompleteOperator index], state)
      | .Leaf => some (.error .indexedOperatorWithoutChildren)

def visit (index : Nat) (destination : Option PendingLiteralDestination)
    (state : TypingState Span Kind) :
    Option (Except (ResolutionError E) (List ResolutionFrame × TypingState Span Kind)) :=
  match state.items[index]? with
  | none => none
  | some (.Operand expression) =>
      match requireSingle state.expressions expression with
      | .error failure => some (.error failure)
      | .ok typeId => some (.ok ([], recordType state index typeId))
  | some (.PendingNumericLiteral _ _) =>
      match materializePendingLiteral services state index destination with
      | .error failure => some (.error failure)
      | .ok (typeId, state) => some (.ok ([], recordType state index typeId))
  | some (.Operator operator _) => visitOperator nodes operator index destination state
  | some (.ResolvedOperator operation) =>
      visitOperator nodes operation.operator index destination state
  | some _ => some (.error .pendingExpressionItem)

/-- A lone literal, or a literal-only subtree, that takes its type from its peer. -/
def visitPeer (index peer : Nat) (exponentEdge : Bool) (state : TypingState Span Kind) :
    Option (Except (ResolutionError E) (List ResolutionFrame × TypingState Span Kind)) :=
  match resolvedType state peer with
  | none => none
  | some (.error failure) => some (.error failure)
  | some (.ok peerType) =>
      let peerDestination := pendingLiteralDestinationForTypeId peerType services.environment
      let destination :=
        if exponentEdge ∧ peerDestination.any PendingLiteralDestination.isNumber then none
        else peerDestination
      some (.ok ([.Visit index destination], state))

/-- The frame that types a child only where it has no type yet. -/
def visitUntyped (state : TypingState Span Kind) (index : Nat) : Option (List ResolutionFrame) :=
  (state.types[index]?).map fun typeId =>
    match typeId with
    | some _ => []
    | none => [.Visit index none]

/-- The exponent of a power whose base was typed for a decimal receiver. -/
def visitReceiverExponent (base exponent : Nat) (state : TypingState Span Kind) :
    Option (Except (ResolutionError E) (List ResolutionFrame × TypingState Span Kind)) :=
  match literalPeerShape nodes state.items base exponent with
  | none => none
  | some (some (.LoneLiteral literal peer)) =>
      (visitUntyped state peer).map fun frames =>
        .ok (frames ++ [.VisitPeerLiteral literal peer (decide (literal = exponent))], state)
  | some (some (.CompoundContextual compound peer)) =>
      (visitUntyped state peer).map fun frames =>
        .ok (frames ++ [.VisitCompoundPeer compound peer (decide (compound = exponent))], state)
  | some none => (visitUntyped state exponent).map fun frames => .ok (frames, state)

/-- The types of the children of an operator. -/
def childTypes (state : TypingState Span Kind) :
    ExpressionChildren → Option (Except (ResolutionError E) (TypeId × Option TypeId))
  | .Unary child => (resolvedType state child).map fun childType =>
      childType.map fun childType => (childType, none)
  | .Binary left right =>
      match resolvedType state left, resolvedType state right with
      | some (.ok leftType), some (.ok rightType) => some (.ok (leftType, some rightType))
      | some (.error failure), some _ => some (.error failure)
      | some (.ok _), some (.error failure) => some (.error failure)
      | _, _ => none
  | .Leaf => some (.error .completedOperatorWithoutChildren)

/-- The operator as a semantic operation, with the types that its policy gives. -/
def resolveOperation (operator : Operator) (span : Option Span) (leftType : TypeId)
    (rightType : Option TypeId) : Except E (ResolvedOperation Span Kind) := do
  let resultType ← match rightType with
    | none => services.resolveUnaryOperatorType operator leftType span
    | some rightType => services.resolveBinaryOperatorType leftType rightType operator span
  let kind ← services.operationKind operator span resultType leftType rightType
  return { operator, span, resultType, leftType, rightType, kind }

def completeOperator (index : Nat) (state : TypingState Span Kind) :
    Option (Except (ResolutionError E) (List ResolutionFrame × TypingState Span Kind)) :=
  match state.items[index]?, nodes[index]? with
  | some (.ResolvedOperator operation), some _ =>
      some (.ok ([], recordType state index operation.resultType))
  | some (.Operator operator span), some node =>
      match childTypes state node.children with
      | none => none
      | some (.error failure) => some (.error failure)
      | some (.ok (leftType, rightType)) =>
          match resolveOperation services operator span leftType rightType with
          | .error failure => some (.error (.service failure))
          | .ok operation =>
              some (.ok ([], { recordType state index operation.resultType with
                items := state.items.set index (.ResolvedOperator operation) }))
  | some _, some _ => some (.error .lostIndexedOperator)
  | _, _ => none

/-- One turn of the loop. -/
def resolveFrame (frame : ResolutionFrame) (state : TypingState Span Kind) :
    Option (Except (ResolutionError E) (List ResolutionFrame × TypingState Span Kind)) :=
  match frame with
  | .Visit index destination => visit services nodes index destination state
  | .VisitPeerLiteral index peer exponentEdge => visitPeer services index peer exponentEdge state
  | .VisitCompoundPeer index peer exponentEdge => visitPeer services index peer exponentEdge state
  | .VisitReceiverExponent base exponent => visitReceiverExponent nodes base exponent state
  | .CompleteOperator index => completeOperator services nodes index state

def resolveIndexedExpression (fuel root : Nat) (destination : Option PendingLiteralDestination)
    (state : TypingState Span Kind) :
    Option (Except (ResolutionError E) (TypingState Span Kind)) :=
  runFrames (resolveFrame services nodes) fuel [.Visit root destination] state

end Loop

end Moth.Ast.OperatorTyping
