import Moth.Ast.PrecedenceGrammar

/-!
# Ordering follows the grammar where prefix operators pop nothing

The pass over a fragment of one level leaves behind what the fragment wrote
and the operators it still holds, all of that level or tighter: written out
after it, in stack order, these complete the postorder of its tree.

A prefix operator pops as a binary one does. Where the operator before it is
as tight, that operator is written before its operand, and the order is not
that of the tree.
-/

namespace Moth.Ast

open Moth.ConstEval Moth.Lib

variable {Span Literal : Type}

/-! ## Tight neighbours -/

def isTight : ExpressionRpnItem Span Literal → Bool
  | .Operator operator _ => decide (operator.precedence = 6)
  | _ => false

def isUnary : ExpressionRpnItem Span Literal → Bool
  | .Operator operator _ => decide (operator.requiredValues = 1)
  | _ => false

/-- Whether a prefix operator directly follows a prefix operator or a range operator. -/
def unaryAfterTight : Bool → List (ExpressionRpnItem Span Literal) → Bool
  | _, [] => false
  | after, item :: rest => after && isUnary item || unaryAfterTight (isTight item) rest

theorem unaryAfterTight_binary {operator : Operator} {span : Option Span}
    (hbinary : operator.requiredValues = 2) (after : Bool)
    (left right : List (ExpressionRpnItem Span Literal)) :
    unaryAfterTight after (left ++ .Operator operator span :: right) =
      (unaryAfterTight after left ||
        unaryAfterTight (decide (operator.precedence = 6)) right) := by
  have hone : decide (operator.requiredValues = 1) = false := decide_eq_false (by omega)
  induction left generalizing after with
  | nil =>
      show (after && decide (operator.requiredValues = 1) ||
        unaryAfterTight (decide (operator.precedence = 6)) right) = (false || _)
      rw [hone, Bool.and_false]
  | cons item left ih =>
      rw [List.cons_append, unaryAfterTight, ih, unaryAfterTight, Bool.or_assoc]

theorem unaryAfterTight_group {anchor closeAnchor : Option Span} {distance : Nat} (after : Bool)
    (items : List (ExpressionRpnItem Span Literal)) :
    unaryAfterTight after (.GroupOpen anchor :: (items ++ [.GroupClose distance closeAnchor])) =
      unaryAfterTight false items := by
  have hclose : ∀ (after : Bool) (items : List (ExpressionRpnItem Span Literal)),
      unaryAfterTight after (items ++ [.GroupClose distance closeAnchor]) =
        unaryAfterTight after items := by
    intro after items
    induction items generalizing after with
    | nil =>
        show (after && false || false) = false
        rw [Bool.and_false]
        rfl
    | cons item items ih => rw [List.cons_append, unaryAfterTight, ih, unaryAfterTight]
  show (after && false || unaryAfterTight false (items ++ _)) = _
  rw [Bool.and_false, Bool.false_or, hclose]

/-! ## The pop rule -/

def shouldPop (currentPrecedence : Nat) (leftAssociative : Bool) (existing : Operator) : Bool :=
  if leftAssociative then decide (currentPrecedence ≤ existing.precedence)
  else decide (currentPrecedence < existing.precedence)

/-- Operators of the level or tighter, as the stack of an active group holds them. -/
def AllAbove (level : Nat) (operators : List (ExpressionRpnItem Span Literal)) : Prop :=
  ∀ item ∈ operators, ∃ operator span, item = .Operator operator span ∧
    level ≤ operator.precedence

/-- The operators of the active group leave a fragment of the level to itself. -/
def Fits (level : Nat) (active : List (ExpressionRpnItem Span Literal)) : Prop :=
  ∀ top ∈ active.head?, ∃ operator span, top = .Operator operator span ∧
    (operator.precedence < level ∨ level = 5 ∧ operator.precedence = 5)

def topTight (active : List (ExpressionRpnItem Span Literal)) : Bool := active.head?.any isTight

theorem Fits.looser {level : Nat} {active : List (ExpressionRpnItem Span Literal)}
    (h : Fits level active) : Fits (level + 1) active := by
  intro top htop
  obtain ⟨operator, span, heq, hlevel⟩ := h top htop
  exact ⟨operator, span, heq, .inl (by omega)⟩

theorem popHigherPrecedence_eq {currentPrecedence : Nat} {leftAssociative : Bool}
    {pending active bottom outputQueue : List (ExpressionRpnItem Span Literal)}
    (hpending : ∀ item ∈ pending, ∃ operator span, item = .Operator operator span ∧
      shouldPop currentPrecedence leftAssociative operator = true)
    (hactive : ∀ top ∈ active.head?, ∃ operator span, top = .Operator operator span ∧
      shouldPop currentPrecedence leftAssociative operator = false) :
    popHigherPrecedence currentPrecedence leftAssociative bottom.length
      (pending ++ active ++ bottom) outputQueue =
        .ok (active ++ bottom, outputQueue ++ pending) := by
  induction pending generalizing outputQueue with
  | nil =>
      rw [List.nil_append, List.append_nil]
      cases active with
      | nil =>
          cases bottom with
          | nil => rfl
          | cons item bottom =>
              rw [List.nil_append, popHigherPrecedence, if_neg]
              rw [List.length_cons]
              exact Nat.lt_irrefl _
      | cons top active =>
          obtain ⟨operator, span, rfl, hkeep⟩ := hactive top rfl
          rw [shouldPop] at hkeep
          rw [List.cons_append, popHigherPrecedence, if_pos (by rw [List.length_append]; omega),
            operatorFromItem]
          simp only [hkeep, Bool.false_eq_true, if_false]
  | cons item pending ih =>
      obtain ⟨operator, span, rfl, hpop⟩ := hpending item List.mem_cons_self
      rw [shouldPop] at hpop
      rw [List.cons_append, List.cons_append, popHigherPrecedence,
        if_pos (by simp only [List.length_append]; omega), operatorFromItem]
      simp only [hpop, if_true]
      rw [ih fun item hitem => hpending item (List.mem_cons_of_mem _ hitem), List.append_assoc]
      rfl

theorem popHigherPrecedence_writes {currentPrecedence floor : Nat} {leftAssociative : Bool}
    {stack outputQueue stack' outputQueue' : List (ExpressionRpnItem Span Literal)}
    (h : popHigherPrecedence currentPrecedence leftAssociative floor stack outputQueue =
      .ok (stack', outputQueue')) : outputQueue <+: outputQueue' := by
  induction stack generalizing outputQueue with
  | nil =>
      cases h
      exact List.prefix_rfl
  | cons top stack ih =>
      rw [popHigherPrecedence] at h
      split at h
      · split at h
        · cases h
        · rename_i existing _
          cases hpop : shouldPop currentPrecedence leftAssociative existing with
          | true =>
              rw [shouldPop] at hpop
              simp only [hpop, if_true] at h
              exact (List.prefix_append _ _).trans (ih h)
          | false =>
              rw [shouldPop] at hpop
              simp only [hpop, Bool.false_eq_true, if_false] at h
              cases h
              exact List.prefix_rfl
      · cases h
        exact List.prefix_rfl

theorem orderItem_writes {state next : OrderingState Span Literal}
    {node : ExpressionRpnItem Span Literal} (h : orderItem state node = .ok next) :
    state.outputQueue <+: next.outputQueue := by
  cases node with
  | Operand _ =>
      cases h
      exact List.prefix_append _ _
  | PendingNumericLiteral _ _ =>
      cases h
      exact List.prefix_append _ _
  | GroupOpen _ =>
      cases h
      exact List.prefix_rfl
  | GroupClose _ _ =>
      rw [orderItem] at h
      split at h
      · cases h
      · cases h
        exact List.prefix_append _ _
  | PendingNumericBinding _ => cases h
  | PendingNumericCall _ => cases h
  | PendingNumericCast _ => cases h
  | PendingNumericExpression _ => cases h
  | ResolvedOperator _ _ => cases h
  | Operator operator span =>
      rw [orderItem] at h
      cases hpop : popHigherPrecedence operator.precedence operator.isLeftAssociative
          state.operatorFloor state.operatorStack state.outputQueue with
      | error failure =>
          rw [hpop] at h
          cases h
      | ok popped =>
          rw [hpop] at h
          cases h
          exact popHigherPrecedence_writes hpop

theorem foldlM_orderItem_writes {nodes : List (ExpressionRpnItem Span Literal)}
    {state final : OrderingState Span Literal} (h : nodes.foldlM orderItem state = .ok final) :
    state.outputQueue <+: final.outputQueue := by
  induction nodes generalizing state with
  | nil =>
      cases h
      exact List.prefix_rfl
  | cons node nodes ih =>
      rw [List.foldlM_cons] at h
      cases hnode : orderItem state node with
      | error failure =>
          rw [hnode] at h
          cases h
      | ok next =>
          rw [hnode] at h
          exact (orderItem_writes hnode).trans (ih h)

/-! ## The pass over a fragment -/

/-- The pass in which some operators pop and the others are only held. -/
def orderItemBy (pops : Operator → Bool) (state : OrderingState Span Literal)
    (node : ExpressionRpnItem Span Literal) : Except AstFailure (OrderingState Span Literal) :=
  match node with
  | .Operator operator _ =>
      if pops operator then orderItem state node
      else .ok { state with operatorStack := node :: state.operatorStack }
  | node => orderItem state node

theorem orderItemBy_all : @orderItemBy Span Literal (fun _ => true) = orderItem := by
  funext state node
  cases node <;> rfl

section Pass

variable {expressionSpan : ExprId → Except AstFailure (Option Span)}
  {level : Nat} {items : List (ExpressionRpnItem Span Literal)}
  {tree : ExpressionTree Span Literal} {pops : Operator → Bool}

theorem shouldPop_above {operator existing : Operator}
    (h : operator.precedence ≤ existing.precedence)
    (hexponent : operator = .Exponent → 5 < existing.precedence) :
    shouldPop operator.precedence operator.isLeftAssociative existing = true := by
  rw [shouldPop]
  split
  · exact decide_eq_true h
  · rename_i hright
    have heq : operator = .Exponent := by
      by_contra hne
      exact hright (Operator.isLeftAssociative_iff.2 hne)
    rw [heq]
    exact decide_eq_true (hexponent heq)

theorem shouldPop_below {operator existing : Operator}
    (h : existing.precedence < operator.precedence ∨
      operator.precedence = 5 ∧ existing.precedence = 5) :
    shouldPop operator.precedence operator.isLeftAssociative existing = false := by
  rw [shouldPop]
  split
  · rename_i hleft
    refine decide_eq_false ?_
    rcases h with hlt | ⟨hfive, -⟩
    · omega
    · exact absurd (Operator.precedence_eq_five.1 hfive) (Operator.isLeftAssociative_iff.1 hleft)
  · refine decide_eq_false ?_
    omega

/-- A binary operator writes what a fragment before it still held, and is held itself. -/
theorem orderItemBy_binary {operator : Operator} {span : Option Span}
    {pending active bottom outputQueue : List (ExpressionRpnItem Span Literal)} {floors : List Nat}
    (hpops : pops operator = true)
    (hpending : AllAbove (if operator = .Exponent then 6 else operator.precedence) pending)
    (hfits : Fits operator.precedence active) :
    orderItemBy pops ⟨outputQueue, pending ++ active ++ bottom, floors, bottom.length⟩
        (.Operator operator span) =
      .ok ⟨outputQueue ++ pending, .Operator operator span :: (active ++ bottom), floors,
        bottom.length⟩ := by
  have hpop := @popHigherPrecedence_eq _ _ operator.precedence operator.isLeftAssociative pending
    active bottom outputQueue
    (by
      intro item hitem
      obtain ⟨existing, existingSpan, heq, hlevel⟩ := hpending item hitem
      refine ⟨existing, existingSpan, heq, ?_⟩
      split at hlevel
      · rename_i hexponent
        have hfive : operator.precedence = 5 := by rw [hexponent]; rfl
        exact shouldPop_above (by omega) fun _ => by omega
      · rename_i hexponent
        exact shouldPop_above hlevel fun h => absurd h hexponent)
    (by
      intro top htop
      obtain ⟨existing, existingSpan, heq, hlevel⟩ := hfits top htop
      exact ⟨existing, existingSpan, heq, shouldPop_below hlevel⟩)
  rw [orderItemBy, if_pos hpops, orderItem, hpop]
  rfl

/-- A prefix operator is held, where it pops nothing. -/
theorem orderItemBy_unary {operator : Operator} {span : Option Span}
    {active bottom outputQueue : List (ExpressionRpnItem Span Literal)} {floors : List Nat}
    (hunary : operator.requiredValues = 1) (hfits : Fits 7 active)
    (hclear : pops operator = false ∨ topTight active = false) :
    orderItemBy pops ⟨outputQueue, active ++ bottom, floors, bottom.length⟩
        (.Operator operator span) =
      .ok ⟨outputQueue, .Operator operator span :: (active ++ bottom), floors,
        bottom.length⟩ := by
  rw [orderItemBy]
  cases hpops : pops operator with
  | false => rfl
  | true =>
      have htop : topTight active = false := by
        rcases hclear with hnever | htop
        · rw [hnever] at hpops
          cases hpops
        · exact htop
      have hsix := (Operator.precedence_unary hunary).1
      have hpop := @popHigherPrecedence_eq _ _ operator.precedence operator.isLeftAssociative []
        active bottom outputQueue (fun item hitem => absurd hitem List.not_mem_nil)
        (by
          intro top hhead
          obtain ⟨existing, existingSpan, rfl, -⟩ := hfits top hhead
          refine ⟨existing, existingSpan, rfl, shouldPop_below (.inl ?_)⟩
          rw [topTight, Option.mem_def.1 hhead, Option.any_some, isTight,
            decide_eq_false_iff_not] at htop
          have hle := existing.precedence_le
          omega)
      rw [if_pos rfl, orderItem]
      rw [List.nil_append, List.append_nil] at hpop
      rw [hpop]
      rfl

theorem Fits.push {operator : Operator} {span : Option Span}
    {active : List (ExpressionRpnItem Span Literal)}
    (h : operator.precedence < level ∨ level = 5 ∧ operator.precedence = 5) :
    Fits level (.Operator operator span :: active) := by
  intro top htop
  cases htop
  exact ⟨operator, span, rfl, h⟩

theorem AllAbove.mono {bound : Nat} {held : List (ExpressionRpnItem Span Literal)}
    (h : AllAbove level held) (hle : bound ≤ level) : AllAbove bound held := by
  intro item hitem
  obtain ⟨operator, span, heq, hlevel⟩ := h item hitem
  exact ⟨operator, span, heq, hle.trans hlevel⟩

theorem AllAbove.snoc {held : List (ExpressionRpnItem Span Literal)} {operator : Operator}
    {span : Option Span} (h : AllAbove level held) (hle : level ≤ operator.precedence) :
    AllAbove level (held ++ [.Operator operator span]) := by
  intro item hitem
  rcases List.mem_append.1 hitem with hitem | hitem
  · exact h item hitem
  · rw [List.mem_singleton] at hitem
    exact ⟨operator, span, hitem, hle⟩

/-- What the pass over a fragment writes and what it holds afterwards: together the postorder of
the tree. -/
def Passes (pops : Operator → Bool) (items : List (ExpressionRpnItem Span Literal))
    (tree : ExpressionTree Span Literal) (bound : Nat)
    (active bottom outputQueue : List (ExpressionRpnItem Span Literal)) (floors : List Nat) :
    Prop :=
  ∃ written held,
    items.foldlM (orderItemBy pops) ⟨outputQueue, active ++ bottom, floors, bottom.length⟩ =
      .ok ⟨outputQueue ++ written, held ++ active ++ bottom, floors, bottom.length⟩ ∧
    written ++ held = tree.postorder ∧ AllAbove bound held

theorem drained_eq (outputQueue held bottom : List (ExpressionRpnItem Span Literal))
    (floors : List Nat) :
    (OrderingState.mk outputQueue (held ++ bottom) floors bottom.length).drained = held := by
  rw [OrderingState.drained]
  show (held ++ bottom).take ((held ++ bottom).length - bottom.length) = held
  rw [List.length_append, Nat.add_sub_cancel, List.take_left]

theorem orderItem_close (distance : Nat) (anchor : Option Span)
    {outputQueue held bottom : List (ExpressionRpnItem Span Literal)} {floor : Nat}
    {floors : List Nat} :
    orderItem ⟨outputQueue, held ++ bottom, floor :: floors, bottom.length⟩
        (.GroupClose distance anchor) =
      .ok ⟨outputQueue ++ held, bottom, floors, floor⟩ := by
  have hdrop : (held ++ bottom).drop ((held ++ bottom).length - bottom.length) = bottom := by
    rw [List.length_append, Nat.add_sub_cancel, List.drop_left]
  rw [orderItem, drained_eq]
  dsimp only
  rw [hdrop]

theorem Passes.unary {operator : Operator} {span : Option Span}
    {active bottom outputQueue : List (ExpressionRpnItem Span Literal)} {floors : List Nat}
    (hunary : operator.requiredValues = 1) (hfits : Fits 7 active)
    (hclear : pops operator = false ∨ topTight active = false)
    (h : Passes pops items tree 6 (.Operator operator span :: active) bottom outputQueue floors) :
    Passes pops (.Operator operator span :: items) (.unary operator span tree) 6 active bottom
      outputQueue floors := by
  obtain ⟨written, held, hrun, hpost, habove⟩ := h
  refine ⟨written, held ++ [.Operator operator span], ?_, ?_, habove.snoc ?_⟩
  · rw [foldlM_cons_ok (orderItemBy_unary hunary hfits hclear), List.append_assoc held]
    exact hrun
  · rw [← List.append_assoc, hpost]
    rfl
  · rw [(Operator.precedence_unary hunary).1]

theorem Passes.group {anchor closeAnchor : Option Span} {distance : Nat}
    {active bottom outputQueue : List (ExpressionRpnItem Span Literal)} {floors : List Nat}
    (h : Passes pops items tree 0 [] (active ++ bottom) outputQueue (bottom.length :: floors)) :
    Passes pops (.GroupOpen anchor :: (items ++ [.GroupClose distance closeAnchor])) tree 6 active
      bottom outputQueue floors := by
  obtain ⟨written, held, hrun, hpost, -⟩ := h
  refine ⟨written ++ held, [], ?_, by rw [List.append_nil, hpost],
    fun item hitem => absurd hitem List.not_mem_nil⟩
  rw [List.nil_append, List.append_nil] at hrun
  have hopen : orderItemBy pops ⟨outputQueue, active ++ bottom, floors, bottom.length⟩
      (.GroupOpen anchor) = .ok ⟨outputQueue, active ++ bottom, bottom.length :: floors,
        (active ++ bottom).length⟩ := rfl
  have hclose : orderItemBy pops ⟨outputQueue ++ written, held ++ (active ++ bottom),
      bottom.length :: floors, (active ++ bottom).length⟩ (.GroupClose distance closeAnchor) =
        .ok ⟨outputQueue ++ written ++ held, active ++ bottom, floors, bottom.length⟩ :=
    orderItem_close distance closeAnchor
  rw [foldlM_cons_ok hopen, foldlM_append_ok hrun, foldlM_cons_ok hclose, List.append_assoc]
  rfl

theorem Passes.binary {operator : Operator} {span : Option Span}
    {left right : List (ExpressionRpnItem Span Literal)}
    {leftTree rightTree : ExpressionTree Span Literal}
    {active bottom outputQueue : List (ExpressionRpnItem Span Literal)} {floors : List Nat}
    (hpops : pops operator = true) (hfits : Fits operator.precedence active)
    (hleft : Passes pops left leftTree (if operator = .Exponent then 6 else operator.precedence)
      active bottom outputQueue floors)
    (hright : ∀ outputQueue, Passes pops right rightTree operator.precedence
      (.Operator operator span :: active) bottom outputQueue floors) :
    Passes pops (left ++ .Operator operator span :: right)
      (.binary operator span leftTree rightTree) operator.precedence active bottom outputQueue floors := by
  obtain ⟨written, held, hrun, hpost, habove⟩ := hleft
  obtain ⟨written', held', hrun', hpost', habove'⟩ := hright (outputQueue ++ written ++ held)
  refine ⟨written ++ held ++ written', held' ++ [.Operator operator span], ?_, ?_,
    habove'.snoc (Nat.le_refl _)⟩
  · rw [foldlM_append_ok hrun, foldlM_cons_ok (orderItemBy_binary hpops habove hfits),
      ← List.append_assoc, ← List.append_assoc, List.append_assoc held']
    exact hrun'
  · rw [hpost, List.append_assoc, ← List.append_assoc written' held', hpost', ← List.append_assoc]
    rfl

/-- The pass over a fragment of a level. -/
theorem Parses.passes (h : Parses expressionSpan level items tree)
    (hbinary : ∀ operator : Operator, operator.requiredValues = 2 → pops operator = true)
    {active : List (ExpressionRpnItem Span Literal)} (hfits : Fits level active)
    (hclear : (∀ operator : Operator, operator.requiredValues = 1 → pops operator = false) ∨
      unaryAfterTight (topTight active) items = false)
    (bottom outputQueue : List (ExpressionRpnItem Span Literal)) (floors : List Nat) :
    Passes pops items tree (min level 6) active bottom outputQueue floors := by
  induction h generalizing active bottom outputQueue floors with
  | @operand item hitem =>
      refine ⟨[item], [], ?_, rfl, fun item hitem => absurd hitem List.not_mem_nil⟩
      rcases hitem with ⟨expression, span, rfl, -⟩ | ⟨literal, span, rfl⟩ <;> rfl
  | @unary operator span items tree hunary hitems ih =>
      have htight : isTight (.Operator operator span : ExpressionRpnItem Span Literal) = true :=
        decide_eq_true (Operator.precedence_unary hunary).1
      have hcases : (∀ operator : Operator, operator.requiredValues = 1 → pops operator = false) ∨
          topTight active = false ∧ unaryAfterTight true items = false := by
        refine hclear.imp_right fun hclear => ?_
        rw [unaryAfterTight, htight, isUnary, decide_eq_true hunary, Bool.and_true,
          Bool.or_eq_false_iff] at hclear
        exact hclear
      refine Passes.unary hunary hfits (hcases.imp (fun h => h operator hunary) And.left) ?_
      refine ih (Fits.push (.inl ?_)) (hcases.imp_right fun h => ?_) bottom outputQueue floors
      · rw [(Operator.precedence_unary hunary).1]
        decide
      · rw [topTight, List.head?_cons, Option.any_some, htight]
        exact h.2
  | group hitems ih =>
      rw [unaryAfterTight_group] at hclear
      exact Passes.group (@ih [] (fun top htop => by cases htop) hclear _ _ _)
  | looser hitems ih =>
      obtain ⟨written, held, hrun, hpost, habove⟩ :=
        ih hfits.looser hclear bottom outputQueue floors
      exact ⟨written, held, hrun, hpost, habove.mono (by omega)⟩
  | @left operator span left right leftTree rightTree hbin hassoc hleft hright ihleft ihright =>
      have hsix := operator.precedence_le
      have hmin : min operator.precedence 6 = operator.precedence := by omega
      have hcases : ((∀ operator : Operator, operator.requiredValues = 1 →
            pops operator = false) ∨ unaryAfterTight (topTight active) left = false) ∧
          ((∀ operator : Operator, operator.requiredValues = 1 → pops operator = false) ∨
            unaryAfterTight (decide (operator.precedence = 6)) right = false) := by
        rw [unaryAfterTight_binary hbin, Bool.or_eq_false_iff] at hclear
        exact ⟨hclear.imp_right And.left, hclear.imp_right And.right⟩
      rw [hmin]
      refine Passes.binary (hbinary operator hbin) hfits ?_ fun outputQueue => ?_
      · rw [if_neg hassoc, ← hmin]
        exact ihleft hfits hcases.1 bottom outputQueue floors
      · obtain ⟨written, held, hrun, hpost, habove⟩ :=
          ihright (Fits.push (.inl (Nat.lt_succ_self _))) hcases.2 bottom outputQueue floors
        exact ⟨written, held, hrun, hpost, habove.mono (by omega)⟩
  | @right span left right leftTree rightTree hleft hright ihleft ihright =>
      have hbin : Operator.Exponent.requiredValues = 2 := rfl
      rw [unaryAfterTight_binary hbin, Bool.or_eq_false_iff] at hclear
      refine Passes.binary (hbinary _ hbin) hfits ?_ fun outputQueue => ?_
      · rw [if_pos rfl]
        exact ihleft hfits.looser (hclear.imp_right And.left) bottom outputQueue floors
      · exact ihright (Fits.push (.inr ⟨rfl, rfl⟩)) (hclear.imp_right And.right) bottom
          outputQueue floors

theorem Parses.passes_all (h : Parses expressionSpan level items tree)
    {active : List (ExpressionRpnItem Span Literal)} (hfits : Fits level active)
    (hclear : unaryAfterTight (topTight active) items = false)
    (bottom outputQueue : List (ExpressionRpnItem Span Literal)) (floors : List Nat) :
    Passes (fun _ => true) items tree (min level 6) active bottom outputQueue floors :=
  h.passes (fun _ _ => rfl) hfits (.inr hclear) bottom outputQueue floors

end Pass

end Moth.Ast
