import Moth.Ast.OrderingByGrammar

/-!
# Where ordering follows the grammar

Ordering a well-formed fragment writes the postorder of its tree exactly where
no prefix operator directly follows a prefix operator or a range operator.
Where one does, the earlier operator is written at a place where the postorder
still has an operand.
-/

namespace Moth.Ast

open Moth.ConstEval Moth.Lib

variable {Span Literal : Type} {expressionSpan : ExprId → Except AstFailure (Option Span)}
  {level : Nat} {items : List (ExpressionRpnItem Span Literal)}
  {tree : ExpressionTree Span Literal}

/-! ## Writing an operator early -/

theorem Parses.first_operand (h : Parses expressionSpan level items tree) :
    ∃ leaf rest, tree.postorder = leaf :: rest ∧ IsOperand expressionSpan leaf := by
  have hgrow : ∀ {shorter longer suffix : List (ExpressionRpnItem Span Literal)},
      longer = shorter ++ suffix →
      (∃ leaf rest, shorter = leaf :: rest ∧ IsOperand expressionSpan leaf) →
      ∃ leaf rest, longer = leaf :: rest ∧ IsOperand expressionSpan leaf := by
    rintro shorter longer suffix rfl ⟨leaf, rest, rfl, hleaf⟩
    exact ⟨leaf, rest ++ suffix, rfl, hleaf⟩
  induction h with
  | operand hitem => exact ⟨_, _, rfl, hitem⟩
  | unary _ _ ih => exact hgrow rfl ih
  | group _ ih => exact ih
  | looser _ ih => exact ih
  | left _ _ _ _ ih _ => exact hgrow (List.append_assoc _ _ _) ih
  | right _ _ ih _ => exact hgrow (List.append_assoc _ _ _) ih

/-- Whatever the pass comes to, it has written an operator where the postorder has an operand. -/
def WritesEarly (expressionSpan : ExprId → Except AstFailure (Option Span))
    (items : List (ExpressionRpnItem Span Literal)) (tree : ExpressionTree Span Literal)
    (state : OrderingState Span Literal) : Prop :=
  ∀ final, items.foldlM orderItem state = .ok final → ∃ before operator span leaf rest,
    state.outputQueue ++ before ++ [.Operator operator span] <+: final.outputQueue ∧
    tree.postorder = before ++ leaf :: rest ∧ IsOperand expressionSpan leaf

theorem WritesEarly.append (more suffix : List (ExpressionRpnItem Span Literal))
    {whole : ExpressionTree Span Literal} {state : OrderingState Span Literal}
    (h : WritesEarly expressionSpan items tree state)
    (hwhole : whole.postorder = tree.postorder ++ suffix) :
    WritesEarly expressionSpan (items ++ more) whole state := by
  intro final hfinal
  rw [List.foldlM_append] at hfinal
  obtain ⟨middle, hmiddle, hmore⟩ := Lib.bind_eq_ok.1 hfinal
  obtain ⟨before, operator, span, leaf, rest, hwritten, hpost, hleaf⟩ := h middle hmiddle
  refine ⟨before, operator, span, leaf, rest ++ suffix, ?_, ?_, hleaf⟩
  · exact hwritten.trans (foldlM_orderItem_writes hmore)
  · rw [hwhole, hpost, List.append_assoc, List.cons_append]

/-- Nothing is lost by a step that only reaches the state. -/
theorem WritesEarly.after {first : List (ExpressionRpnItem Span Literal)}
    {whole : ExpressionTree Span Literal} {state next : OrderingState Span Literal}
    (written suffix : List (ExpressionRpnItem Span Literal))
    (hstep : first.foldlM orderItem state = .ok next)
    (hnext : next.outputQueue = state.outputQueue ++ written)
    (h : WritesEarly expressionSpan items tree next)
    (hwhole : whole.postorder = written ++ tree.postorder ++ suffix) :
    WritesEarly expressionSpan (first ++ items) whole state := by
  intro final hfinal
  rw [foldlM_append_ok hstep] at hfinal
  obtain ⟨before, operator, span, leaf, rest, hwritten, hpost, hleaf⟩ := h final hfinal
  refine ⟨written ++ before, operator, span, leaf, rest ++ suffix, ?_, ?_, hleaf⟩
  · rw [hnext, List.append_assoc state.outputQueue] at hwritten
    exact hwritten
  · rw [hwhole, hpost]
    simp only [List.append_assoc, List.cons_append]

theorem popHigherPrecedence_first {existing : Operator} {span : Option Span}
    {currentPrecedence : Nat} {leftAssociative : Bool}
    {active bottom outputQueue stack' outputQueue' : List (ExpressionRpnItem Span Literal)}
    (hpop : shouldPop currentPrecedence leftAssociative existing = true)
    (h : popHigherPrecedence currentPrecedence leftAssociative bottom.length
      (.Operator existing span :: active ++ bottom) outputQueue = .ok (stack', outputQueue')) :
    outputQueue ++ [.Operator existing span] <+: outputQueue' := by
  rw [shouldPop] at hpop
  rw [List.cons_append, popHigherPrecedence, if_pos (by rw [List.length_append]; omega),
    operatorFromItem] at h
  simp only [hpop, if_true] at h
  exact popHigherPrecedence_writes h

theorem writesEarly_unary {operator : Operator} {span : Option Span}
    {active bottom outputQueue : List (ExpressionRpnItem Span Literal)} {floors : List Nat}
    (hunary : operator.requiredValues = 1) (hitems : Parses expressionSpan 7 items tree)
    (hfits : Fits 7 active) (htop : topTight active = true) :
    WritesEarly expressionSpan (.Operator operator span :: items) (.unary operator span tree)
      ⟨outputQueue, active ++ bottom, floors, bottom.length⟩ := by
  intro final hfinal
  cases active with
  | nil => cases htop
  | cons top active =>
      obtain ⟨existing, existingSpan, rfl, -⟩ := hfits top rfl
      have hsix : existing.precedence = 6 := of_decide_eq_true htop
      obtain ⟨hprecedence, -⟩ := Operator.precedence_unary hunary
      rw [List.foldlM_cons, orderItem] at hfinal
      obtain ⟨next, hnext, hrest⟩ := Lib.bind_eq_ok.1 hfinal
      obtain ⟨popped, hpopped, hpushed⟩ := Lib.bind_eq_ok.1 hnext
      cases hpushed
      have hwritten := popHigherPrecedence_first
        (shouldPop_above (by omega) fun _ => by omega) hpopped
      obtain ⟨leaf, rest, hpost, hleaf⟩ := hitems.first_operand
      refine ⟨[], existing, existingSpan, leaf, rest ++ [.Operator operator span], ?_, ?_, hleaf⟩
      · rw [List.append_nil]
        exact hwritten.trans (foldlM_orderItem_writes hrest)
      · rw [ExpressionTree.postorder, hpost, List.nil_append, List.cons_append]

theorem writesEarly_binary {operator : Operator} {span : Option Span}
    {left right : List (ExpressionRpnItem Span Literal)}
    {leftTree rightTree : ExpressionTree Span Literal}
    {active bottom outputQueue : List (ExpressionRpnItem Span Literal)} {floors : List Nat}
    (hfits : Fits operator.precedence active)
    (hleft : WritesEarly expressionSpan left leftTree
        ⟨outputQueue, active ++ bottom, floors, bottom.length⟩ ∨
      Passes (fun _ => true) left leftTree
          (if operator = .Exponent then 6 else operator.precedence) active bottom outputQueue
          floors ∧
        ∀ outputQueue, WritesEarly expressionSpan right rightTree
          ⟨outputQueue, .Operator operator span :: active ++ bottom, floors, bottom.length⟩) :
    WritesEarly expressionSpan (left ++ .Operator operator span :: right)
      (.binary operator span leftTree rightTree)
      ⟨outputQueue, active ++ bottom, floors, bottom.length⟩ := by
  rcases hleft with hearly | ⟨⟨written, held, hrun, hpost, habove⟩, hright⟩
  · refine hearly.append _ (rightTree.postorder ++ [.Operator operator span]) ?_
    rw [ExpressionTree.postorder, List.append_assoc]
  · rw [orderItemBy_all] at hrun
    have hstep := @orderItemBy_binary _ _ (fun _ => true) operator span held active bottom
      (outputQueue ++ written) floors rfl habove hfits
    rw [orderItemBy_all] at hstep
    rw [List.append_cons]
    refine (hright (outputQueue ++ written ++ held)).after (written ++ held)
      [.Operator operator span] ?_ ?_ ?_
    · rw [foldlM_append_ok hrun, foldlM_cons_ok hstep]
      rfl
    · exact List.append_assoc _ _ _
    · rw [hpost, ExpressionTree.postorder]

/-- Where a prefix operator follows a tight operator, the pass departs from the postorder. -/
theorem Parses.writesEarly (h : Parses expressionSpan level items tree)
    {active : List (ExpressionRpnItem Span Literal)} (hfits : Fits level active)
    (htight : unaryAfterTight (topTight active) items = true)
    (bottom outputQueue : List (ExpressionRpnItem Span Literal)) (floors : List Nat) :
    WritesEarly expressionSpan items tree
      ⟨outputQueue, active ++ bottom, floors, bottom.length⟩ := by
  induction h generalizing active bottom outputQueue floors with
  | operand hitem =>
      rcases hitem with ⟨expression, span, rfl, -⟩ | ⟨literal, span, rfl⟩ <;>
        simp [unaryAfterTight, isUnary] at htight
  | @unary operator span items tree hunary hitems ih =>
      cases htop : topTight active with
      | true => exact writesEarly_unary hunary hitems hfits htop
      | false =>
          have hsix := (Operator.precedence_unary hunary).1
          have hstep := @orderItemBy_unary _ _ (fun _ => true) operator span active bottom
            outputQueue floors hunary hfits (.inr htop)
          rw [orderItemBy_all] at hstep
          rw [htop, unaryAfterTight, Bool.false_and, Bool.false_or] at htight
          have hrest : WritesEarly expressionSpan items tree
              ⟨outputQueue, .Operator operator span :: active ++ bottom, floors, bottom.length⟩ :=
            ih (Fits.push (.inl (by omega))) htight bottom outputQueue floors
          have hheld : [.Operator operator span].foldlM orderItem
              ⟨outputQueue, active ++ bottom, floors, bottom.length⟩ = .ok ⟨outputQueue,
                .Operator operator span :: active ++ bottom, floors, bottom.length⟩ := by
            rw [foldlM_cons_ok hstep]
            rfl
          have hwhole : (ExpressionTree.unary operator span tree).postorder =
              [] ++ tree.postorder ++ [.Operator operator span] := rfl
          exact hrest.after [] [.Operator operator span] hheld (List.append_nil _).symm hwhole
  | @group anchor distance closeAnchor items tree hitems ih =>
      rw [unaryAfterTight_group] at htight
      have hinner : WritesEarly expressionSpan items tree ⟨outputQueue, active ++ bottom,
          bottom.length :: floors, (active ++ bottom).length⟩ :=
        @ih [] (fun top htop => by cases htop) htight (active ++ bottom) outputQueue
          (bottom.length :: floors)
      have hopen : [.GroupOpen anchor].foldlM orderItem
          ⟨outputQueue, active ++ bottom, floors, bottom.length⟩ = .ok ⟨outputQueue,
            active ++ bottom, bottom.length :: floors, (active ++ bottom).length⟩ := rfl
      have hclosed := hinner.append [.GroupClose distance closeAnchor] []
        (List.append_nil tree.postorder).symm
      have hwhole : tree.postorder = [] ++ tree.postorder ++ [] := (List.append_nil _).symm
      show WritesEarly expressionSpan
        ([.GroupOpen anchor] ++ (items ++ [.GroupClose distance closeAnchor])) tree _
      exact hclosed.after [] [] hopen (List.append_nil _).symm hwhole
  | looser hitems ih => exact ih hfits.looser htight bottom outputQueue floors
  | @left operator span left right leftTree rightTree hbin hassoc hleft hright ihleft ihright =>
      rw [unaryAfterTight_binary hbin, Bool.or_eq_true] at htight
      refine writesEarly_binary hfits ?_
      cases hclear : unaryAfterTight (topTight active) left with
      | true => exact .inl (ihleft hfits hclear bottom outputQueue floors)
      | false =>
          have hsix := operator.precedence_le
          have hpass := hleft.passes_all hfits hclear bottom outputQueue floors
          have hmin : min operator.precedence 6 = operator.precedence := by omega
          rw [hmin] at hpass
          rw [if_neg hassoc]
          refine .inr ⟨hpass, fun outputQueue => ?_⟩
          refine ihright (Fits.push (.inl (Nat.lt_succ_self _))) ?_ bottom outputQueue floors
          rw [hclear, or_iff_right Bool.false_ne_true] at htight
          exact htight
  | @right span left right leftTree rightTree hleft hright ihleft ihright =>
      have hbin : Operator.Exponent.requiredValues = 2 := rfl
      rw [unaryAfterTight_binary hbin, Bool.or_eq_true] at htight
      refine writesEarly_binary hfits ?_
      cases hclear : unaryAfterTight (topTight active) left with
      | true => exact .inl (ihleft hfits.looser hclear bottom outputQueue floors)
      | false =>
          have hpass := hleft.passes_all hfits.looser hclear bottom outputQueue floors
          rw [if_pos rfl]
          refine .inr ⟨hpass, fun outputQueue => ?_⟩
          refine ihright (Fits.push (.inr ⟨rfl, rfl⟩)) ?_ bottom outputQueue floors
          rw [hclear, or_iff_right Bool.false_ne_true] at htight
          exact htight

/-! ## Reading the order back -/

/-- The trees on the stack after one more item. -/
def readItem (stack : List (ExpressionTree Span Literal)) (item : ExpressionRpnItem Span Literal) :
    Option (List (ExpressionTree Span Literal)) :=
  match item with
  | .Operator operator span =>
      if operator.requiredValues = 1 then
        match stack with
        | tree :: rest => some (.unary operator span tree :: rest)
        | [] => none
      else
        match stack with
        | right :: left :: rest => some (.binary operator span left right :: rest)
        | _ => none
  | item => some (.leaf item :: stack)

theorem Parses.read (h : Parses expressionSpan level items tree)
    (stack : List (ExpressionTree Span Literal)) :
    tree.postorder.foldlM readItem stack = some (tree :: stack) := by
  have hboth : ∀ {operator : Operator} {span : Option Span}
      {left right : ExpressionTree Span Literal}, operator.requiredValues = 2 →
      (∀ stack, left.postorder.foldlM readItem stack = some (left :: stack)) →
      (∀ stack, right.postorder.foldlM readItem stack = some (right :: stack)) →
      ∀ stack, (ExpressionTree.binary operator span left right).postorder.foldlM readItem stack =
        some (.binary operator span left right :: stack) := by
    intro operator span left right hbinary hleft hright stack
    rw [ExpressionTree.postorder, List.foldlM_append, List.foldlM_append, hleft,
      Option.bind_eq_bind, Option.bind_some, hright]
    show (readItem _ (.Operator operator span)).bind _ = _
    rw [readItem, if_neg (by omega)]
    rfl
  induction h generalizing stack with
  | operand hitem => rcases hitem with ⟨expression, span, rfl, -⟩ | ⟨literal, span, rfl⟩ <;> rfl
  | @unary operator span _ _ hunary _ ih =>
      rw [ExpressionTree.postorder, List.foldlM_append, ih, Option.bind_eq_bind, Option.bind_some]
      show (readItem _ (.Operator operator span)).bind _ = _
      rw [readItem, if_pos hunary]
      rfl
  | group _ ih => exact ih stack
  | looser _ ih => exact ih stack
  | left hbinary _ _ _ ihleft ihright => exact hboth hbinary ihleft ihright stack
  | right _ _ ihleft ihright => exact hboth rfl ihleft ihright stack

/-- A fragment has one tree: the pass in which prefix operators pop nothing writes the postorder
of whatever tree it has. -/
theorem Parses.unique {tree' : ExpressionTree Span Literal}
    (h : Parses expressionSpan 0 items tree) (h' : Parses expressionSpan 0 items tree') :
    tree = tree' := by
  have hbinary : ∀ operator : Operator, operator.requiredValues = 2 →
      decide (operator.requiredValues = 2) = true := fun _ => decide_eq_true
  have hunary : ∀ operator : Operator, operator.requiredValues = 1 →
      decide (operator.requiredValues = 2) = false := by
    intro operator hone
    exact decide_eq_false (by omega)
  have hfits : Fits 0 ([] : List (ExpressionRpnItem Span Literal)) := fun top htop => by cases htop
  obtain ⟨written, held, hrun, hpost, -⟩ := h.passes hbinary hfits (.inl hunary) [] [] []
  obtain ⟨written', held', hrun', hpost', -⟩ := h'.passes hbinary hfits (.inl hunary) [] [] []
  rw [hrun] at hrun'
  injection hrun' with hstate
  injection hstate with hwritten hheld
  rw [List.nil_append, List.nil_append] at hwritten
  rw [List.append_nil, List.append_nil, List.append_nil, List.append_nil] at hheld
  have hread := h.read []
  rw [← hpost, hwritten, hheld, hpost', h'.read []] at hread
  injection hread with hread
  injection hread with htree
  exact htree.symm

theorem indexItem_unary {operator : Operator} {span : Option Span}
    (hunary : operator.requiredValues = 1) (nodes : List IndexedExpressionNode) (child : Nat)
    (stack : List Nat) : ∃ node,
      indexItem (nodes, child :: stack) (.Operator operator span : ExpressionRpnItem Span Literal) =
        .ok (nodes ++ [node], nodes.length :: stack) := by
  have hindex : ∃ node, indexOperator operator span nodes (child :: stack) = .ok (node, stack) := by
    rw [indexOperator, if_pos hunary]
    exact ⟨_, rfl⟩
  obtain ⟨node, hnode⟩ := hindex
  refine ⟨node, ?_⟩
  simp only [indexItem, hnode]
  rfl

theorem indexItem_binary {operator : Operator} {span : Option Span}
    (hbinary : operator.requiredValues = 2) (nodes : List IndexedExpressionNode)
    (right left : Nat) (stack : List Nat) : ∃ node,
      indexItem (nodes, right :: left :: stack)
          (.Operator operator span : ExpressionRpnItem Span Literal) =
        .ok (nodes ++ [node], nodes.length :: stack) := by
  have hindex : ∃ node, indexOperator operator span nodes (right :: left :: stack) =
      .ok (node, stack) := by
    rw [indexOperator, if_neg (by omega)]
    exact ⟨_, rfl⟩
  obtain ⟨node, hnode⟩ := hindex
  refine ⟨node, ?_⟩
  simp only [indexItem, hnode]
  rfl

theorem Parses.indexed (h : Parses expressionSpan level items tree)
    (nodes : List IndexedExpressionNode) (stack : List Nat) :
    ∃ nodes' root, tree.postorder.foldlM indexItem (nodes, stack) =
      .ok (nodes', root :: stack) := by
  have hboth : ∀ {operator : Operator} {span : Option Span}
      {left right : ExpressionTree Span Literal}, operator.requiredValues = 2 →
      (∀ nodes stack, ∃ nodes' root, left.postorder.foldlM indexItem (nodes, stack) =
        .ok (nodes', root :: stack)) →
      (∀ nodes stack, ∃ nodes' root, right.postorder.foldlM indexItem (nodes, stack) =
        .ok (nodes', root :: stack)) →
      ∀ nodes stack, ∃ nodes' root,
        (ExpressionTree.binary operator span left right).postorder.foldlM indexItem
          (nodes, stack) = .ok (nodes', root :: stack) := by
    intro operator span left right hbinary hleft hright nodes stack
    obtain ⟨nodes₁, root₁, hrun₁⟩ := hleft nodes stack
    obtain ⟨nodes₂, root₂, hrun₂⟩ := hright nodes₁ (root₁ :: stack)
    obtain ⟨node, hnode⟩ := @indexItem_binary Span Literal operator span hbinary nodes₂ root₂ root₁
      stack
    refine ⟨nodes₂ ++ [node], nodes₂.length, ?_⟩
    rw [ExpressionTree.postorder, List.append_assoc, foldlM_append_ok hrun₁,
      foldlM_append_ok hrun₂]
    exact foldlM_cons_ok hnode []
  induction h generalizing nodes stack with
  | operand hitem =>
      rcases hitem with ⟨expression, span, rfl, -⟩ | ⟨literal, span, rfl⟩ <;>
        exact ⟨_, _, rfl⟩
  | @unary operator span _ _ hunary _ ih =>
      obtain ⟨nodes', root, hrun⟩ := ih nodes stack
      obtain ⟨node, hnode⟩ := @indexItem_unary Span Literal operator span hunary nodes' root stack
      refine ⟨nodes' ++ [node], nodes'.length, ?_⟩
      rw [ExpressionTree.postorder, foldlM_append_ok hrun]
      exact foldlM_cons_ok hnode []
  | group _ ih => exact ih nodes stack
  | looser _ ih => exact ih nodes stack
  | left hbinary _ _ _ ihleft ihright => exact hboth hbinary ihleft ihright nodes stack
  | right _ _ ihleft ihright => exact hboth rfl ihleft ihright nodes stack

/-! ## The whole of ordering -/

theorem WellFormed.ne_nil (h : WellFormed expressionSpan items) : items ≠ [] := by
  cases h with
  | operand _ => exact List.cons_ne_nil _ _
  | unary _ _ => exact List.cons_ne_nil _ _
  | group _ => exact List.cons_ne_nil _ _
  | binary _ _ _ => exact List.append_ne_nil_of_right_ne_nil _ (List.cons_ne_nil _ _)

theorem WellFormed.sourceSpan (h : WellFormed expressionSpan items) :
    ∀ item ∈ items, ∃ span, Ast.sourceSpan expressionSpan item = .ok span := by
  induction h with
  | operand hitem =>
      intro item hmem
      rw [List.mem_singleton] at hmem
      subst hmem
      rcases hitem with ⟨expression, span, rfl, hspan⟩ | ⟨literal, span, rfl⟩
      · exact ⟨span, hspan⟩
      · exact ⟨span, rfl⟩
  | unary _ _ ih =>
      intro item hmem
      rcases List.mem_cons.1 hmem with rfl | hmem
      · exact ⟨_, rfl⟩
      · exact ih item hmem
  | group _ ih =>
      intro item hmem
      rcases List.mem_cons.1 hmem with rfl | hmem
      · exact ⟨_, rfl⟩
      · rcases List.mem_append.1 hmem with hmem | hmem
        · exact ih item hmem
        · rw [List.mem_singleton] at hmem
          rw [hmem]
          exact ⟨_, rfl⟩
  | binary _ _ _ ihleft ihright =>
      intro item hmem
      rcases List.mem_append.1 hmem with hmem | hmem
      · exact ihleft item hmem
      · rcases List.mem_cons.1 hmem with rfl | hmem
        · exact ⟨_, rfl⟩
        · exact ihright item hmem

theorem WellFormed.extractExpressionSpan (h : WellFormed expressionSpan items) :
    ∃ span, Ast.extractExpressionSpan expressionSpan items = .ok span := by
  obtain ⟨first, rest, rfl⟩ := List.exists_cons_of_ne_nil h.ne_nil
  rw [Ast.extractExpressionSpan]
  cases hfind : (first :: rest).find? isOperandShape with
  | none => exact h.sourceSpan first List.mem_cons_self
  | some node => exact h.sourceSpan node (List.mem_of_find?_eq_some hfind)

theorem orderExpressionNodes_eq_ok (h : WellFormed expressionSpan items)
    {ordered : List (ExpressionRpnItem Span Literal)} :
    (∃ span, orderExpressionNodes expressionSpan items = .ok (ordered, span)) ↔
      ∃ state, items.foldlM orderItem ⟨[], [], [], 0⟩ = .ok state ∧ state.parentFloors = [] ∧
        state.outputQueue ++ state.drained = ordered := by
  obtain ⟨span, hspan⟩ := h.extractExpressionSpan
  have hne : items.isEmpty = false := List.isEmpty_eq_false_iff.2 h.ne_nil
  rw [orderExpressionNodes, hne, if_neg Bool.false_ne_true, hspan]
  cases hrun : items.foldlM orderItem (⟨[], [], [], 0⟩ : OrderingState Span Literal) with
  | error failure =>
      refine iff_of_false ?_ ?_
      · rintro ⟨_, herror⟩
        cases herror
      · rintro ⟨_, herror, -⟩
        cases herror
  | ok state =>
      cases hfloors : state.parentFloors with
      | nil =>
          have hdone : ∀ value : Except AstFailure
              (List (ExpressionRpnItem Span Literal) × Option Span),
              (if state.parentFloors.isEmpty then
                pure (state.outputQueue ++ state.drained, span) else value) =
              .ok (state.outputQueue ++ state.drained, span) := by
            intro value
            rw [hfloors]
            rfl
          constructor
          · rintro ⟨span', hok⟩
            refine ⟨state, rfl, hfloors, ?_⟩
            have hboth := (hdone _).symm.trans hok
            injection hboth with hboth
            injection hboth
          · rintro ⟨state', hstate, -, hout⟩
            cases hstate
            exact ⟨span, (hdone _).trans (by rw [hout])⟩
      | cons floor floors =>
          refine iff_of_false ?_ ?_
          · rintro ⟨span', hok⟩
            have hthrow : ∀ value : Except AstFailure
                (List (ExpressionRpnItem Span Literal) × Option Span),
                (if state.parentFloors.isEmpty then value
                  else throw ⟨"Expression ordering ended inside an unclosed group."⟩) =
                throw ⟨"Expression ordering ended inside an unclosed group."⟩ := by
              intro value
              rw [hfloors]
              rfl
            have hboth := (hthrow _).symm.trans hok
            cases hboth
          · rintro ⟨state', hstate, hnil, -⟩
            cases hstate
            rw [hfloors] at hnil
            cases hnil

/-- Ordering a fragment writes the postorder of its tree, which indexes to one root. -/
def OrdersByGrammar (expressionSpan : ExprId → Except AstFailure (Option Span))
    (items : List (ExpressionRpnItem Span Literal)) : Prop :=
  ∃ tree, Parses expressionSpan 0 items tree ∧
    (∃ span, orderExpressionNodes expressionSpan items = .ok (tree.postorder, span)) ∧
    ∃ nodes root, indexExpressionNodes tree.postorder = .ok (nodes, [root])

theorem fits_nil (level : Nat) : Fits level ([] : List (ExpressionRpnItem Span Literal)) :=
  fun top htop => by cases htop

theorem OrdersByGrammar.clear (hordered : OrdersByGrammar expressionSpan items) :
    unaryAfterTight false items = false := by
  obtain ⟨tree, htree, hordered, -⟩ := hordered
  obtain ⟨state, hrun, -, hout⟩ := (orderExpressionNodes_eq_ok htree.wellFormed).1 hordered
  cases htight : unaryAfterTight false items with
  | false => rfl
  | true =>
      obtain ⟨before, operator, span, leaf, rest, hwritten, hpost, hleaf⟩ :=
        htree.writesEarly (fits_nil 0) htight [] [] [] state hrun
      have hstart := hwritten.trans (List.prefix_append state.outputQueue state.drained)
      rw [hout, hpost, List.nil_append, List.prefix_append_right_inj,
        List.cons_prefix_cons] at hstart
      rw [← hstart.1] at hleaf
      rcases hleaf with ⟨_, _, heq, -⟩ | ⟨_, _, heq⟩ <;> cases heq

theorem WellFormed.ordersByGrammar (h : WellFormed expressionSpan items)
    (hclear : unaryAfterTight false items = false) : OrdersByGrammar expressionSpan items := by
  obtain ⟨tree, htree⟩ := h.parses
  obtain ⟨written, held, hrun, hpost, -⟩ := htree.passes_all (fits_nil 0) hclear [] [] []
  rw [orderItemBy_all] at hrun
  refine ⟨tree, htree, (orderExpressionNodes_eq_ok h).2 ⟨_, hrun, rfl, ?_⟩, htree.indexed [] []⟩
  rw [List.append_nil, drained_eq, List.append_nil, List.nil_append, hpost]

/-- Ordering follows the precedence grammar exactly where no prefix operator directly follows a
prefix operator or a range operator. -/
theorem ordersByGrammar_iff (h : WellFormed expressionSpan items) :
    (∃! tree, Parses expressionSpan 0 items tree) ∧
      (OrdersByGrammar expressionSpan items ↔ unaryAfterTight false items = false) := by
  obtain ⟨tree, htree⟩ := h.parses
  exact ⟨⟨tree, htree, fun other hother => hother.unique htree⟩,
    OrdersByGrammar.clear, h.ordersByGrammar⟩

/-- `not (a or b) ^ c`. -/
def notGroupExponent : List (ExpressionRpnItem Nat Nat) :=
  .Operator .Not (some 0) :: ((.GroupOpen (some 1) ::
    ([.Operand ⟨0⟩, .Operator .Or (some 2), .Operand ⟨1⟩] ++ [.GroupClose 4 (some 1)])) ++
      .Operator .Exponent (some 3) :: [.Operand ⟨2⟩])

theorem ordersByGrammar_iff_group :
    (∃! tree, Parses (fun _ => .ok none) 0 notGroupExponent tree) ∧
      (OrdersByGrammar (fun _ => .ok none) notGroupExponent ↔
        unaryAfterTight false notGroupExponent = false) := by
  have hoperand : ∀ n, WellFormed (fun _ => .ok none)
      ([.Operand ⟨n⟩] : List (ExpressionRpnItem Nat Nat)) :=
    fun n => .operand (.inl ⟨⟨n⟩, none, rfl, rfl⟩)
  exact ordersByGrammar_iff (.unary rfl (.binary rfl
    (.group (.binary rfl (hoperand 0) (hoperand 1))) (hoperand 2)))

/-- `a and not not b`, its prefix operators as the parser pushes them. -/
def andNotNot : List (ExpressionRpnItem Nat Nat) :=
  let expression := [.Operand ⟨0⟩, .Operator .And (some 1)]
  let (_, expression, _) := parseUnaryOperator .NOT (some .NOT) 2 expression false
  let (_, expression, _) := parseUnaryOperator .NOT (some .other) 3 expression false
  expression ++ [.Operand ⟨1⟩]

/-- It is ordered as `(not a) and (not b)`. -/
theorem andNotNot_misordered :
    WellFormed (fun _ => .ok none) andNotNot ∧
      orderExpressionNodes (fun _ => .ok none) andNotNot =
        .ok ([.Operand ⟨0⟩, .Operator .Not (some 2), .Operand ⟨1⟩, .Operator .Not (some 3),
          .Operator .And (some 1)], none) ∧
      ¬ OrdersByGrammar (fun _ => .ok none) andNotNot := by
  have hoperand : ∀ n, WellFormed (fun _ => .ok none)
      ([.Operand ⟨n⟩] : List (ExpressionRpnItem Nat Nat)) :=
    fun n => .operand (.inl ⟨⟨n⟩, none, rfl, rfl⟩)
  refine ⟨?_, by rfl, fun hordered => ?_⟩
  · exact @WellFormed.binary _ _ _ _ _ [.Operand ⟨0⟩]
      [.Operator .Not (some 2), .Operator .Not (some 3), .Operand ⟨1⟩] rfl (hoperand 0)
      (.unary rfl (.unary rfl (hoperand 1)))
  · have hclear := hordered.clear
    have htight : unaryAfterTight false andNotNot = true := by decide
    rw [htight] at hclear
    cases hclear

end Moth.Ast
