import Moth.ConstEval.FoldWalk
import Moth.Datatypes.NumericScalar

/-!
# Expression ordering

`ast/expressions/eval_expression/ordering.rs`: the shunting-yard pass from a
flat infix fragment to postfix order, with the operator vocabulary of
`expression_kind.rs`, and `index_expression_nodes`, which reads postfix order
back as a tree.

An item keeps what these read. The spans of completed operands are in the
expression store.
-/

namespace Moth.Ast

open Moth.ConstEval Moth.Datatypes

/-! ## Operators -/

inductive Operator where
  | Add
  | Subtract
  | Multiply
  | Divide
  | IntDivide
  | Modulus
  | Exponent
  | And
  | Or
  | GreaterThan
  | GreaterThanOrEqual
  | LessThan
  | LessThanOrEqual
  | Equality
  | NotEqual
  | Not
  | Negate
  | Range
deriving DecidableEq

namespace Operator

def precedence : Operator → Nat
  | Range | Not | Negate => 6
  | Exponent => 5
  | Multiply | Divide | IntDivide | Modulus => 4
  | Add | Subtract => 3
  | LessThan | LessThanOrEqual | GreaterThan | GreaterThanOrEqual | Equality | NotEqual => 2
  | And => 1
  | Or => 0

def isLeftAssociative : Operator → Bool
  | Exponent => false
  | _ => true

def requiredValues : Operator → Nat
  | Not | Negate => 1
  | _ => 2

def numericOperator : Operator → Option NumericOperator
  | Add => some .Add
  | Subtract => some .Subtract
  | Multiply => some .Multiply
  | Divide => some .Divide
  | IntDivide => some .IntegerDivide
  | Modulus => some .Remainder
  | Exponent => some .Power
  | Negate => some .Negate
  | _ => none

end Operator

/-! ## Items -/

inductive ExpressionRpnItem (Span Literal : Type) where
  | Operand (expression : ExprId)
  | PendingNumericLiteral (literal : Literal) (span : Option Span)
  | GroupOpen (anchorSpan : Option Span)
  | GroupClose (openDistance : Nat) (anchorSpan : Option Span)
  | PendingNumericBinding (span : Option Span)
  | PendingNumericCall (span : Option Span)
  | PendingNumericCast (span : Option Span)
  | PendingNumericExpression (span : Option Span)
  | Operator (operator : Operator) (span : Option Span)
  | ResolvedOperator (operator : Operator) (span : Option Span)
deriving DecidableEq

/-- An internal failure of AST construction. -/
structure AstFailure where
  message : String
deriving DecidableEq

def pendingExpressionItemBug (function : String) : AstFailure :=
  ⟨"Pending expression item reached " ++ function ++
    "; evaluate_expression must resolve it first."⟩

section Items

variable {Span Literal : Type} (expressionSpan : ExprId → Except AstFailure (Option Span))

def sourceSpan : ExpressionRpnItem Span Literal → Except AstFailure (Option Span)
  | .Operand expression => expressionSpan expression
  | .PendingNumericLiteral _ span | .GroupOpen span | .GroupClose _ span
  | .PendingNumericBinding span | .PendingNumericCall span | .PendingNumericCast span
  | .PendingNumericExpression span | .Operator _ span | .ResolvedOperator _ span => .ok span

def isOperandShape : ExpressionRpnItem Span Literal → Bool
  | .Operand _ | .PendingNumericLiteral _ _ | .GroupClose _ _ | .PendingNumericBinding _
  | .PendingNumericCall _ | .PendingNumericCast _ | .PendingNumericExpression _ => true
  | _ => false

/-- The span of the first item in operand position, else of the first item. -/
def extractExpressionSpan (nodes : List (ExpressionRpnItem Span Literal)) :
    Except AstFailure (Option Span) :=
  match nodes with
  | [] => .error ⟨"No nodes found in expression. This should never happen."⟩
  | first :: _ =>
      match nodes.find? isOperandShape with
      | some node => sourceSpan expressionSpan node
      | none => sourceSpan expressionSpan first

/-! ## Ordering -/

def operatorFromItem : ExpressionRpnItem Span Literal → Except AstFailure Operator
  | .Operator operator _ => .ok operator
  | _ => .error ⟨"Expression ordering stored an operand on the operator stack."⟩

/-- Pop while the top operator is above the floor and binds tightly enough. The stack lists its
top first. -/
def popHigherPrecedence (currentPrecedence : Nat) (leftAssociative : Bool)
    (operatorFloor : Nat) :
    List (ExpressionRpnItem Span Literal) → List (ExpressionRpnItem Span Literal) →
      Except AstFailure
        (List (ExpressionRpnItem Span Literal) × List (ExpressionRpnItem Span Literal))
  | [], outputQueue => .ok ([], outputQueue)
  | topOperator :: operatorStack, outputQueue =>
      if operatorFloor < operatorStack.length + 1 then
        match operatorFromItem topOperator with
        | .error failure => .error failure
        | .ok existing =>
            let shouldPop :=
              if leftAssociative then decide (currentPrecedence ≤ existing.precedence)
              else decide (currentPrecedence < existing.precedence)
            if shouldPop then
              popHigherPrecedence currentPrecedence leftAssociative operatorFloor operatorStack
                (outputQueue ++ [topOperator])
            else .ok (topOperator :: operatorStack, outputQueue)
      else .ok (topOperator :: operatorStack, outputQueue)

structure OrderingState (Span Literal : Type) where
  outputQueue : List (ExpressionRpnItem Span Literal)
  operatorStack : List (ExpressionRpnItem Span Literal)
  parentFloors : List Nat
  operatorFloor : Nat

/-- `drain(operator_floor..)`, innermost first. -/
def OrderingState.drained (state : OrderingState Span Literal) :
    List (ExpressionRpnItem Span Literal) :=
  state.operatorStack.take (state.operatorStack.length - state.operatorFloor)

/-- One turn of the loop. -/
def orderItem (state : OrderingState Span Literal) (node : ExpressionRpnItem Span Literal) :
    Except AstFailure (OrderingState Span Literal) :=
  match node with
  | .GroupOpen _ => .ok { state with
      parentFloors := state.operatorFloor :: state.parentFloors
      operatorFloor := state.operatorStack.length }
  | .GroupClose _ _ =>
      match state.parentFloors with
      | [] => .error ⟨"Expression ordering found an unmatched group close."⟩
      | parentFloor :: parentFloors => .ok {
          outputQueue := state.outputQueue ++ state.drained
          operatorStack := state.operatorStack.drop
            (state.operatorStack.length - state.operatorFloor)
          parentFloors
          operatorFloor := parentFloor }
  | .Operand _ | .PendingNumericLiteral _ _ =>
      .ok { state with outputQueue := state.outputQueue ++ [node] }
  | .PendingNumericBinding _ | .PendingNumericCall _ | .PendingNumericCast _
  | .PendingNumericExpression _ => .error (pendingExpressionItemBug "expression ordering")
  | .Operator operator _ => do
      let (operatorStack, outputQueue) ← popHigherPrecedence operator.precedence
        operator.isLeftAssociative state.operatorFloor state.operatorStack state.outputQueue
      pure { state with outputQueue, operatorStack := node :: operatorStack }
  | .ResolvedOperator _ _ =>
      .error ⟨"Resolved operation reached transient infix expression ordering."⟩

def orderExpressionNodes (nodes : List (ExpressionRpnItem Span Literal)) :
    Except AstFailure (List (ExpressionRpnItem Span Literal) × Option Span) := do
  if nodes.isEmpty then throw ⟨"No nodes found in expression. This should never happen."⟩
  let span ← extractExpressionSpan expressionSpan nodes
  let state ← nodes.foldlM orderItem ⟨[], [], [], 0⟩
  if state.parentFloors.isEmpty then pure (state.outputQueue ++ state.drained, span)
  else throw ⟨"Expression ordering ended inside an unclosed group."⟩

end Items

/-! ## Indexing -/

inductive ExpressionChildren where
  | Leaf
  | Unary (child : Nat)
  | Binary (left right : Nat)
deriving DecidableEq

structure IndexedExpressionNode where
  children : ExpressionChildren
  literalOnly : Bool
deriving DecidableEq

inductive OperatorOperandPosition where
  | Unary
  | BinaryLeft
  | BinaryRight
deriving DecidableEq

inductive ExpressionTypingError (Span : Type) where
  | infrastructure (failure : AstFailure)
  | missingOperatorOperand (operator : Operator) (position : OperatorOperandPosition)
      (span : Option Span)
deriving DecidableEq

section Indexing

variable {Span Literal : Type}

/-- The index of a node is its position; the stack lists its top first. -/
def indexOperator (operator : Operator) (span : Option Span)
    (nodes : List IndexedExpressionNode) (stack : List Nat) :
    Except (ExpressionTypingError Span) (IndexedExpressionNode × List Nat) :=
  let literalOnly index := (nodes[index]?).any IndexedExpressionNode.literalOnly
  if operator.requiredValues = 1 then
    match stack with
    | [] => .error (.missingOperatorOperand operator .Unary span)
    | child :: stack =>
        .ok (⟨.Unary child, decide (operator = .Negate) && literalOnly child⟩, stack)
  else
    match stack with
    | [] => .error (.missingOperatorOperand operator .BinaryRight span)
    | [_] => .error (.missingOperatorOperand operator .BinaryLeft span)
    | right :: left :: stack =>
        .ok (⟨.Binary left right, operator.numericOperator.isSome && literalOnly left &&
          literalOnly right⟩, stack)

def indexItem (state : List IndexedExpressionNode × List Nat)
    (item : ExpressionRpnItem Span Literal) :
    Except (ExpressionTypingError Span) (List IndexedExpressionNode × List Nat) := do
  let (nodes, stack) := state
  let (node, stack) ← match item with
    | .Operand _ => .ok (⟨.Leaf, false⟩, stack)
    | .PendingNumericLiteral _ _ => .ok (⟨.Leaf, true⟩, stack)
    | .GroupOpen _ | .GroupClose _ _ | .PendingNumericBinding _ | .PendingNumericCall _
    | .PendingNumericCast _ | .PendingNumericExpression _ =>
        .error (.infrastructure (pendingExpressionItemBug "expression result typing"))
    | .Operator operator span | .ResolvedOperator operator span =>
        indexOperator operator span nodes stack
  pure (nodes ++ [node], nodes.length :: stack)

def indexExpressionNodes (items : List (ExpressionRpnItem Span Literal)) :
    Except (ExpressionTypingError Span) (List IndexedExpressionNode × List Nat) :=
  items.foldlM indexItem ([], [])

end Indexing

/-! ## Prefix operators -/

inductive TokenTag where
  | NEGATIVE
  | NOT
  | NUMERIC_LITERAL
  | other
deriving DecidableEq

/-- Whether a prefix operator was consumed, the fragment after it, and whether the next number
takes the sign instead. -/
def parseUnaryOperator {Span Literal : Type} (currentTag : TokenTag)
    (peekNextTag : Option TokenTag) (currentSpan : Span)
    (expression : List (ExpressionRpnItem Span Literal)) (nextNumberNegative : Bool) :
    Bool × List (ExpressionRpnItem Span Literal) × Bool :=
  match currentTag with
  | .NEGATIVE =>
      if peekNextTag = some .NUMERIC_LITERAL then (true, expression, true)
      else (true, expression ++ [.Operator .Negate (some currentSpan)], nextNumberNegative)
  | .NOT => (true, expression ++ [.Operator .Not (some currentSpan)], nextNumberNegative)
  | _ => (false, expression, nextNumberNegative)

end Moth.Ast
