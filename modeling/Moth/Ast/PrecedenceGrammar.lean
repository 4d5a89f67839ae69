import Moth.Ast.ExpressionOrdering

/-!
# The precedence grammar

A fragment is well formed when operands, groups and operators alternate as
they should, whatever binds tighter. The grammar gives each such fragment one
tree: level by level, operators of one precedence associate to the left and
exponentiation to the right, and an operand position is an operand, a group,
or a prefix operator and an operand position.
-/

namespace Moth.Ast

open Moth.ConstEval

variable {Span Literal : Type}

inductive ExpressionTree (Span Literal : Type) where
  | leaf (operand : ExpressionRpnItem Span Literal)
  | unary (operator : Operator) (span : Option Span) (operand : ExpressionTree Span Literal)
  | binary (operator : Operator) (span : Option Span) (left right : ExpressionTree Span Literal)

def ExpressionTree.postorder : ExpressionTree Span Literal → List (ExpressionRpnItem Span Literal)
  | .leaf operand => [operand]
  | .unary operator span operand => operand.postorder ++ [.Operator operator span]
  | .binary operator span left right =>
      left.postorder ++ right.postorder ++ [.Operator operator span]

section Grammar

variable (expressionSpan : ExprId → Except AstFailure (Option Span))

/-- A completed operand with a row in the store, or a numeric literal. -/
def IsOperand (item : ExpressionRpnItem Span Literal) : Prop :=
  (∃ expression span, item = .Operand expression ∧ expressionSpan expression = .ok span) ∨
    ∃ literal span, item = .PendingNumericLiteral literal span

inductive WellFormed : List (ExpressionRpnItem Span Literal) → Prop
  | operand {item} (hitem : IsOperand expressionSpan item) : WellFormed [item]
  | unary {operator span items} (hunary : operator.requiredValues = 1)
      (hitems : WellFormed items) : WellFormed (.Operator operator span :: items)
  | group {anchor distance closeAnchor items} (hitems : WellFormed items) :
      WellFormed (.GroupOpen anchor :: (items ++ [.GroupClose distance closeAnchor]))
  | binary {operator span left right} (hbinary : operator.requiredValues = 2)
      (hleft : WellFormed left) (hright : WellFormed right) :
      WellFormed (left ++ .Operator operator span :: right)

/-- The trees of the operand positions are at level 7, those of whole fragments at level 0. -/
inductive Parses :
    Nat → List (ExpressionRpnItem Span Literal) → ExpressionTree Span Literal → Prop
  | operand {item} (hitem : IsOperand expressionSpan item) : Parses 7 [item] (.leaf item)
  | unary {operator span items tree} (hunary : operator.requiredValues = 1)
      (hitems : Parses 7 items tree) :
      Parses 7 (.Operator operator span :: items) (.unary operator span tree)
  | group {anchor distance closeAnchor items tree} (hitems : Parses 0 items tree) :
      Parses 7 (.GroupOpen anchor :: (items ++ [.GroupClose distance closeAnchor])) tree
  | looser {level items tree} (hitems : Parses (level + 1) items tree) : Parses level items tree
  | left {operator span left right leftTree rightTree}
      (hbinary : operator.requiredValues = 2) (hleftAssociative : operator ≠ .Exponent)
      (hleft : Parses operator.precedence left leftTree)
      (hright : Parses (operator.precedence + 1) right rightTree) :
      Parses operator.precedence (left ++ .Operator operator span :: right)
        (.binary operator span leftTree rightTree)
  | right {span left right leftTree rightTree}
      (hleft : Parses (Operator.Exponent.precedence + 1) left leftTree)
      (hright : Parses Operator.Exponent.precedence right rightTree) :
      Parses Operator.Exponent.precedence (left ++ .Operator .Exponent span :: right)
        (.binary .Exponent span leftTree rightTree)

end Grammar

/-! ## Operators -/

theorem Operator.precedence_le (operator : Operator) : operator.precedence ≤ 6 := by
  cases operator <;> decide

theorem Operator.precedence_eq_five {operator : Operator} :
    operator.precedence = 5 ↔ operator = .Exponent := by
  cases operator <;> decide

theorem Operator.isLeftAssociative_iff {operator : Operator} :
    operator.isLeftAssociative = true ↔ operator ≠ .Exponent := by
  cases operator <;> decide

theorem Operator.precedence_unary {operator : Operator} (h : operator.requiredValues = 1) :
    operator.precedence = 6 ∧ operator.isLeftAssociative = true := by
  cases operator <;> first | exact ⟨rfl, rfl⟩ | cases h

/-! ## Every fragment has a tree -/

section Trees

variable {expressionSpan : ExprId → Except AstFailure (Option Span)}
  {level : Nat} {items : List (ExpressionRpnItem Span Literal)}
  {tree : ExpressionTree Span Literal}

theorem Parses.of_le {lower : Nat} (h : Parses expressionSpan level items tree)
    (hle : lower ≤ level) : Parses expressionSpan lower items tree := by
  induction hle with
  | refl => exact h
  | step _ ih => exact ih (.looser h)

theorem Parses.cons_unary {operator : Operator} {span : Option Span}
    (hunary : operator.requiredValues = 1) (h : Parses expressionSpan level items tree) :
    ∃ tree', Parses expressionSpan level (.Operator operator span :: items) tree' := by
  induction h with
  | operand hitem => exact ⟨_, .unary hunary (.operand hitem)⟩
  | unary hunary' hitems _ => exact ⟨_, .unary hunary (.unary hunary' hitems)⟩
  | group hitems _ => exact ⟨_, .unary hunary (.group hitems)⟩
  | looser _ ih =>
      obtain ⟨tree', h'⟩ := ih
      exact ⟨tree', .looser h'⟩
  | left hbinary hassoc _ hright ih _ =>
      obtain ⟨tree', h'⟩ := ih
      exact ⟨_, .left hbinary hassoc h' hright⟩
  | right _ hright ih _ =>
      obtain ⟨tree', h'⟩ := ih
      exact ⟨_, .right h' hright⟩

/-- An operand position and a binary operator go to the front of a fragment. The operator takes as
much of the fragment as binds tighter. -/
theorem Parses.cons_binary {operator : Operator} {span : Option Span}
    {front : List (ExpressionRpnItem Span Literal)} {frontTree : ExpressionTree Span Literal}
    (hbinary : operator.requiredValues = 2) (hfront : Parses expressionSpan 7 front frontTree)
    (h : Parses expressionSpan level items tree) :
    ∃ tree', Parses expressionSpan (min level operator.precedence)
      (front ++ .Operator operator span :: items) tree' := by
  have hsix := operator.precedence_le
  have hdirect : ∀ {level items tree}, Parses expressionSpan level items tree →
      operator.precedence < level ∨ operator = .Exponent ∧ operator.precedence ≤ level →
      ∃ tree', Parses expressionSpan (min level operator.precedence)
        (front ++ .Operator operator span :: items) tree' := by
    intro level items tree h hlevel
    have hmin : min level operator.precedence = operator.precedence := by omega
    rw [hmin]
    by_cases hassoc : operator = .Exponent
    · subst hassoc
      exact ⟨_, .right (hfront.of_le (by decide)) (h.of_le (by omega))⟩
    · refine ⟨_, .left hbinary hassoc (hfront.of_le (by omega)) (h.of_le ?_)⟩
      rcases hlevel with hlt | ⟨heq, -⟩
      · exact hlt
      · exact absurd heq hassoc
  induction h with
  | operand hitem => exact hdirect (.operand hitem) (.inl (by omega))
  | unary hunary hitems _ => exact hdirect (.unary hunary hitems) (.inl (by omega))
  | group hitems _ => exact hdirect (.group hitems) (.inl (by omega))
  | looser hitems ih =>
      obtain ⟨tree', h'⟩ := ih
      exact ⟨tree', h'.of_le (by omega)⟩
  | @left other _ _ _ _ _ hbinary' hassoc' hleft hright ih _ =>
      by_cases htight : operator.precedence < other.precedence ∨
          operator = .Exponent ∧ operator.precedence ≤ other.precedence
      · exact hdirect (.left hbinary' hassoc' hleft hright) htight
      · rw [not_or, not_lt] at htight
        have hmin : min other.precedence operator.precedence = other.precedence := by omega
        rw [hmin] at ih ⊢
        obtain ⟨tree', h'⟩ := ih
        rw [← List.cons_append, ← List.append_assoc]
        exact ⟨_, .left hbinary' hassoc' h' hright⟩
  | right hleft hright ih _ =>
      by_cases htight : operator.precedence < Operator.Exponent.precedence ∨
          operator = .Exponent ∧ operator.precedence ≤ Operator.Exponent.precedence
      · exact hdirect (.right hleft hright) htight
      · rw [not_or, not_lt, not_and] at htight
        have hne : operator.precedence ≠ 5 := by
          intro heq
          exact htight.2 (Operator.precedence_eq_five.1 heq) (Nat.le_of_eq heq)
        have hfive : Operator.Exponent.precedence = 5 := rfl
        have hmin : min (Operator.Exponent.precedence + 1) operator.precedence =
            Operator.Exponent.precedence + 1 := by omega
        have hmin' : min Operator.Exponent.precedence operator.precedence =
            Operator.Exponent.precedence := by omega
        rw [hmin] at ih
        rw [hmin']
        obtain ⟨tree', h'⟩ := ih
        rw [← List.cons_append, ← List.append_assoc]
        exact ⟨_, .right h' hright⟩

theorem Parses.position_binary {operator : Operator} {span : Option Span}
    {rest : List (ExpressionRpnItem Span Literal)} {restTree : ExpressionTree Span Literal}
    (h : Parses expressionSpan 7 items tree) (hbinary : operator.requiredValues = 2)
    (hrest : Parses expressionSpan 0 rest restTree) :
    ∃ tree', Parses expressionSpan 0 (items ++ .Operator operator span :: rest) tree' := by
  obtain ⟨tree', h'⟩ := h.cons_binary hbinary hrest
  exact ⟨tree', h'.of_le (Nat.zero_le _)⟩

theorem Parses.append_binary {operator : Operator} {span : Option Span}
    {rest : List (ExpressionRpnItem Span Literal)} {restTree : ExpressionTree Span Literal}
    (hbinary : operator.requiredValues = 2) (h : Parses expressionSpan level items tree)
    (hrest : Parses expressionSpan 0 rest restTree) :
    ∃ tree', Parses expressionSpan 0 (items ++ .Operator operator span :: rest) tree' := by
  induction h generalizing operator span rest restTree with
  | operand hitem => exact (Parses.operand hitem).position_binary hbinary hrest
  | unary hunary hitems _ => exact (Parses.unary hunary hitems).position_binary hbinary hrest
  | group hitems _ => exact (Parses.group hitems).position_binary hbinary hrest
  | looser _ ih => exact ih hbinary hrest
  | left hbinary' _ _ _ ihleft ihright =>
      obtain ⟨tree', h'⟩ := ihright hbinary hrest
      obtain ⟨tree'', h''⟩ := ihleft hbinary' h'
      rw [List.append_assoc, List.cons_append]
      exact ⟨tree'', h''⟩
  | right _ _ ihleft ihright =>
      obtain ⟨tree', h'⟩ := ihright hbinary hrest
      obtain ⟨tree'', h''⟩ := ihleft (show Operator.Exponent.requiredValues = 2 from rfl) h'
      rw [List.append_assoc, List.cons_append]
      exact ⟨tree'', h''⟩

theorem WellFormed.parses (h : WellFormed expressionSpan items) :
    ∃ tree, Parses expressionSpan 0 items tree := by
  induction h with
  | operand hitem => exact ⟨_, (Parses.operand hitem).of_le (Nat.zero_le _)⟩
  | unary hunary _ ih =>
      obtain ⟨tree, h⟩ := ih
      exact h.cons_unary hunary
  | group _ ih =>
      obtain ⟨tree, h⟩ := ih
      exact ⟨tree, (Parses.group h).of_le (Nat.zero_le _)⟩
  | binary hbinary _ _ ihleft ihright =>
      obtain ⟨leftTree, hleft⟩ := ihleft
      obtain ⟨rightTree, hright⟩ := ihright
      exact hleft.append_binary hbinary hright

theorem Parses.wellFormed (h : Parses expressionSpan level items tree) :
    WellFormed expressionSpan items := by
  induction h with
  | operand hitem => exact .operand hitem
  | unary hunary _ ih => exact .unary hunary ih
  | group _ ih => exact .group ih
  | looser _ ih => exact ih
  | left hbinary _ _ _ ihleft ihright => exact .binary hbinary ihleft ihright
  | right _ _ ihleft ihright => exact .binary rfl ihleft ihright

end Trees

end Moth.Ast
