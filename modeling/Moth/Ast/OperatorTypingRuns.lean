import Moth.Ast.NumericReports
import Moth.Ast.OperatorTypingSound

/-!
# Runs of operator typing

The frames of an operator arrange its children in one of three ways. Each way
leaves both children resolved and typed before the operator is completed, and
by induction on the index a visit of any node works.
-/

namespace Moth.Ast.OperatorTyping

open Moth.Ast Moth.ConstEval Moth.Datatypes Moth.Lexical Moth.Lib

variable {Span Kind E : Type} {services : TypingServices Span Kind E}
  {nodes : List IndexedExpressionNode} {start : List (TypedRpnItem Span Kind)}
  {state : TypingState Span Kind} {index : Nat}

section Children

variable {left right : Nat} (hleft : Visits services nodes start left)
  (hright : Visits services nodes start right) (hleftLt : left < nodes.length)
  (hrightLt : right < nodes.length)

include hleft hright hleftLt hrightLt

/-- The exponent of a base that is done: the shape may have changed since, as the
literals of the base are operands by now. -/
theorem receiver_works (h : Underway nodes start state) (hbase : SubtreeDone nodes state left) :
    Works services nodes start [.VisitReceiverExponent left right] state
      (BothDone nodes left right) := by
  obtain ⟨shape, hshape, hsides⟩ := literalPeerShape_sides h hleftLt hrightLt
  have hpeerLt : ∀ {literal peer : Nat},
      (literal = left ∧ peer = right ∨ literal = right ∧ peer = left) →
      (peer = left ∨ peer = right) ∧ peer < nodes.length := by
    intro literal peer hpeer
    omega
  cases shape with
  | none =>
      obtain ⟨frames, hframes, hworks⟩ := untyped_works hleft hright (Or.inr rfl) h hrightLt
      have hstep : resolveFrame services nodes (.VisitReceiverExponent left right) state
          = some (.ok (frames, state)) := by
        rw [resolveFrame, visitReceiverExponent, hshape]
        simp only []
        rw [hframes]
        rfl
      refine Handles.push hstep (hworks.mono fun state' hafter => ?_)
      exact ⟨hafter.1, hafter.2.1, hafter.2.1.subtree hbase, hafter.2.2⟩
  | some shape =>
      cases shape with
      | LoneLiteral literal peer =>
          obtain ⟨hchild, hlt⟩ := hpeerLt hsides
          obtain ⟨frames, hframes, hworks⟩ := untyped_works hleft hright hchild h hlt
          have hstep : resolveFrame services nodes (.VisitReceiverExponent left right) state
              = some (.ok (frames ++ [.VisitPeerLiteral literal peer (decide (literal = right))],
                state)) := by
            rw [resolveFrame, visitReceiverExponent, hshape]
            simp only []
            rw [hframes]
            rfl
          exact Handles.push hstep (literal_works hleft hright hsides (Or.inl rfl) hworks)
      | CompoundContextual compound peer =>
          obtain ⟨hchild, hlt⟩ := hpeerLt hsides
          obtain ⟨frames, hframes, hworks⟩ := untyped_works hleft hright hchild h hlt
          have hstep : resolveFrame services nodes (.VisitReceiverExponent left right) state
              = some (.ok (frames ++ [.VisitCompoundPeer compound peer (decide (compound = right))],
                state)) := by
            rw [resolveFrame, visitReceiverExponent, hshape]
            simp only []
            rw [hframes]
            rfl
          exact Handles.push hstep (literal_works hleft hright hsides (Or.inr rfl) hworks)

theorem binaryFrames_work (h : Underway nodes start state) (operator : Operator)
    (destination : Option PendingLiteralDestination) :
    ∃ frames, binaryFrames nodes state.items operator left right destination = some frames ∧
      Works services nodes start frames state (BothDone nodes left right) := by
  obtain ⟨shape, hshape, hsides⟩ := literalPeerShape_sides h hleftLt hrightLt
  have hpeer : ∀ {literal peer : Nat},
      (literal = left ∧ peer = right ∨ literal = right ∧ peer = left) →
      Works services nodes start [.Visit peer none] state fun state' =>
        SubtreeDone nodes state' peer := by
    intro literal peer hpeer
    rcases hpeer with hpeer | hpeer
    · rw [hpeer.2]
      exact hright none state h
    · rw [hpeer.2]
      exact hleft none state h
  rw [binaryFrames, hshape]
  simp only [Option.bind_eq_bind, Option.bind_some]
  split
  · split
    · -- the base under the receiver, then the exponent by the type of the base
      refine ⟨_, rfl, Works.append (hleft destination state h) fun state' h' _ hdone => ?_⟩
      exact receiver_works hleft hright hleftLt hrightLt h' hdone
    · exact ⟨_, rfl, both_work hleft hright h _ _⟩
  · split
    · cases shape with
      | none => exact ⟨_, rfl, both_work hleft hright h _ _⟩
      | some shape =>
          cases shape with
          | LoneLiteral literal peer =>
              exact ⟨_, rfl, literal_works hleft hright hsides (Or.inl rfl) (hpeer hsides)⟩
          | CompoundContextual compound peer =>
              exact ⟨_, rfl, literal_works hleft hright hsides (Or.inr rfl) (hpeer hsides)⟩
    · exact ⟨_, rfl, both_work hleft hright h _ _⟩

end Children

/-! ## Operators -/

/-- The children of an operator are there and done. -/
def ChildrenDone (nodes : List IndexedExpressionNode) (state : TypingState Span Kind) :
    ExpressionChildren → Prop
  | .Leaf => False
  | .Unary child => SubtreeDone nodes state child
  | .Binary left right => BothDone nodes left right state

theorem ChildrenDone.below {node : IndexedExpressionNode}
    (h : ChildrenDone nodes state node.children) (hnode : nodes[index]? = some node) :
    ∀ below, Below nodes index below → below ≠ index → Done state below := by
  intro below hbelow hne
  cases hbelow with
  | self => exact absurd rfl hne
  | unary hnode' hchildren hbelow =>
      cases hnode.symm.trans hnode'
      rw [hchildren] at h
      exact h below hbelow
  | left hnode' hchildren hbelow =>
      cases hnode.symm.trans hnode'
      rw [hchildren] at h
      exact h.1 below hbelow
  | right hnode' hchildren hbelow =>
      cases hnode.symm.trans hnode'
      rw [hchildren] at h
      exact h.2 below hbelow

theorem ChildrenDone.childTypes {children : ExpressionChildren}
    (h : ChildrenDone nodes state children) :
    ∃ leftType rightType,
      OperatorTyping.childTypes (E := E) state children = some (.ok (leftType, rightType)) := by
  cases children with
  | Leaf => exact absurd h id
  | Unary child =>
      obtain ⟨_, typeId, _, _, htype⟩ := Done.resolvedType (E := E) (h child (.self child))
      refine ⟨typeId, none, ?_⟩
      rw [OperatorTyping.childTypes, htype]
      rfl
  | Binary left right =>
      obtain ⟨_, leftType, _, _, hleft⟩ := Done.resolvedType (E := E) (h.1 left (.self left))
      obtain ⟨_, rightType, _, _, hright⟩ := Done.resolvedType (E := E) (h.2 right (.self right))
      refine ⟨leftType, some rightType, ?_⟩
      rw [OperatorTyping.childTypes, hleft, hright]

/-- An operator whose children are done is completed, or its policy reports. -/
theorem complete_works (h : Underway nodes start state) {node : IndexedExpressionNode}
    (hnode : nodes[index]? = some node) (hchildren : ChildrenDone nodes state node.children) :
    Works services nodes start [.CompleteOperator index] state fun state' =>
      SubtreeDone nodes state' index := by
  have hlt := (List.getElem?_eq_some_iff.mp hnode).1
  obtain ⟨item, node', hitem, hnode', hfits⟩ := h.indexed.item hlt
  cases hnode.symm.trans hnode'
  have hnotLeaf : node.children ≠ .Leaf := by
    intro hleaf
    rw [hleaf] at hchildren
    exact hchildren
  have hbelow := hchildren.below hnode
  cases item with
  | ResolvedOperator operation =>
      have htype : HasType state.expressions
          (.ResolvedOperator operation : TypedRpnItem Span Kind) operation.resultType := rfl
      refine Handles.done ?_ (h.record hitem htype hbelow)
      rw [resolveFrame, completeOperator, hitem, hnode]
  | Operator operator span =>
      obtain ⟨leftType, rightType, htypes⟩ := hchildren.childTypes (E := E)
      cases hresolve : resolveOperation services operator span leftType rightType with
      | error failure =>
          have hstep : resolveFrame services nodes (.CompleteOperator index) state
              = some (.error (.service failure)) := by
            rw [resolveFrame, completeOperator, hitem, hnode]
            simp only []
            rw [htypes]
            simp only []
            rw [hresolve]
          exact Handles.fail hstep trivial
      | ok operation =>
          obtain ⟨hunderway, hgrows⟩ := h.write (.ResolvedOperator operation) state.expressions
            state.materialised hitem (fun _ => id)
            (fun children hfits => by
              cases children with
              | Leaf => exact absurd hfits id
              | Unary child => exact hfits
              | Binary left right => exact hfits)
            rfl List.prefix_rfl h.once (fun other => by
              constructor
              · exact Or.inl
              · intro hmem
                rcases hmem with hmem | hmem
                · exact hmem
                · cases hmem.2)
          have hitemLt := (List.getElem?_eq_some_iff.mp hitem).1
          have htype : HasType state.expressions
              (.ResolvedOperator operation : TypedRpnItem Span Kind) operation.resultType := rfl
          obtain ⟨hrecorded, hgrows', hsubtree⟩ := hunderway.record
            (List.getElem?_set_self hitemLt) htype fun below hmem hne =>
              hgrows below (hbelow below hmem hne)
          refine Handles.done ?_ ⟨hrecorded, hgrows.trans hgrows', hsubtree⟩
          rw [resolveFrame, completeOperator, hitem, hnode]
          simp only []
          rw [htypes]
          simp only []
          rw [hresolve]
          rfl
  | Operand expression => exact absurd hfits hnotLeaf
  | PendingNumericLiteral token span => exact absurd hfits hnotLeaf
  | _ => exact absurd hfits id

/-- A visit of an operator, whose children come before it, works when theirs do. -/
theorem visit_operator {item : TypedRpnItem Span Kind} {operator : Operator}
    {destination : Option PendingLiteralDestination} (h : Underway nodes start state)
    (hitem : state.items[index]? = some item)
    (hoperator : ∀ destination, visit services nodes index destination state
      = visitOperator nodes operator index destination state)
    (hnotOperand : ∀ expression, item ≠ .Operand expression)
    (hnotLiteral : ∀ token span, item ≠ .PendingNumericLiteral token span)
    (hvisits : ∀ child, child < index → Visits services nodes start child) :
    Works services nodes start [.Visit index destination] state fun state' =>
      SubtreeDone nodes state' index := by
  have hlt : index < nodes.length := by
    rw [← h.indexed.length]
    exact (List.getElem?_eq_some_iff.mp hitem).1
  obtain ⟨found, node, hfound, hnode, hfits⟩ := h.indexed.item hlt
  cases hitem.symm.trans hfound
  have hchildren : (∃ child, node.children = .Unary child ∧ child < index) ∨
      ∃ left right, node.children = .Binary left right ∧ left < index ∧ right < index := by
    generalize node.children = children at hfits
    cases item with
    | Operand expression => exact absurd rfl (hnotOperand expression)
    | PendingNumericLiteral token span => exact absurd rfl (hnotLiteral token span)
    | Operator operator span =>
        cases children with
        | Leaf => exact absurd hfits id
        | Unary child => exact Or.inl ⟨child, rfl, hfits⟩
        | Binary left right => exact Or.inr ⟨left, right, rfl, hfits⟩
    | ResolvedOperator operation =>
        cases children with
        | Leaf => exact absurd hfits id
        | Unary child => exact Or.inl ⟨child, rfl, hfits⟩
        | Binary left right => exact Or.inr ⟨left, right, rfl, hfits⟩
    | _ => exact absurd hfits id
  have hcomplete : ∀ {frames : List ResolutionFrame},
      Works services nodes start frames state (fun state' =>
        ChildrenDone nodes state' node.children) →
      Works services nodes start (frames ++ [.CompleteOperator index]) state fun state' =>
        SubtreeDone nodes state' index := by
    intro frames hframes
    refine Works.append hframes fun state' h' _ hdone => ?_
    exact complete_works h' hnode hdone
  rcases hchildren with ⟨child, hchildren, hchild⟩ | ⟨left, right, hchildren, hleft, hright⟩
  · rw [hchildren] at hcomplete
    have hstep : resolveFrame services nodes (.Visit index destination) state
        = some (.ok ([.Visit child (if operator = .Negate then destination else none)]
          ++ [.CompleteOperator index], state)) := by
      rw [resolveFrame, hoperator, visitOperator, hnode]
      simp only []
      rw [hchildren]
      rfl
    exact Handles.push hstep (hcomplete (hvisits child hchild _ state h))
  · rw [hchildren] at hcomplete
    obtain ⟨frames, hframes, hworks⟩ := binaryFrames_work (hvisits left hleft)
      (hvisits right hright) (Nat.lt_trans hleft hlt) (Nat.lt_trans hright hlt) h operator
      destination
    refine Handles.push ?_ (hcomplete hworks)
    rw [resolveFrame, hoperator, visitOperator, hnode]
    simp only []
    rw [hchildren]
    simp only []
    rw [hframes]
    rfl

/-- By induction on the index: children come before their parent. -/
theorem visits (services : TypingServices Span Kind E) (nodes : List IndexedExpressionNode)
    (start : List (TypedRpnItem Span Kind)) (index : Nat) (hlt : index < nodes.length) :
    Visits services nodes start index := by
  induction index using Nat.strong_induction_on with
  | _ index ih =>
      intro destination state h
      obtain ⟨item, node, hitem, _, _⟩ := h.indexed.item hlt
      have hvisits : ∀ child, child < index → Visits services nodes start child :=
        fun child hchild => ih child hchild (Nat.lt_trans hchild hlt)
      cases item with
      | Operator operator span =>
          have hvisit : ∀ destination, visit services nodes index destination state
              = visitOperator nodes operator index destination state := by
            intro destination
            rw [visit, hitem]
          exact visit_operator h hitem hvisit (fun _ heq => by cases heq)
            (fun _ _ heq => by cases heq) hvisits
      | ResolvedOperator operation =>
          have hvisit : ∀ destination, visit services nodes index destination state
              = visitOperator nodes operation.operator index destination state := by
            intro destination
            rw [visit, hitem]
          exact visit_operator h hitem hvisit (fun _ heq => by cases heq)
            (fun _ _ heq => by cases heq) hvisits
      | _ =>
          refine visit_leaf h hlt (fun operator span heq => ?_) fun operation heq => ?_
          · cases hitem.symm.trans heq
          · cases hitem.symm.trans heq

/-! ## Indexing -/

/-- Nodes that were indexed from items: every node is below an entry of the stack. -/
structure Filled (items : List (TypedRpnItem Span Kind)) (nodes : List IndexedExpressionNode)
    (stack : List Nat) : Prop where
  indexed : Indexed items nodes
  held : ∀ index ∈ stack, index < nodes.length
  covered : ∀ index < nodes.length, ∃ top ∈ stack, Below nodes top index

theorem Below.append {more : List IndexedExpressionNode} {below : Nat}
    (h : Below nodes index below) : Below (nodes ++ more) index below := by
  have hkeep : ∀ {index : Nat} {node : IndexedExpressionNode}, nodes[index]? = some node →
      (nodes ++ more)[index]? = some node := by
    intro index node hnode
    rw [List.getElem?_append_left (List.getElem?_eq_some_iff.mp hnode).1]
    exact hnode
  induction h with
  | self index => exact .self index
  | unary hnode hchildren _ ih => exact .unary (hkeep hnode) hchildren ih
  | left hnode hchildren _ ih => exact .left (hkeep hnode) hchildren ih
  | right hnode hchildren _ ih => exact .right (hkeep hnode) hchildren ih

/-- The nodes that an item takes from the stack become its children. -/
theorem Filled.push {items : List (TypedRpnItem Span Kind)} {stack rest : List Nat}
    {item : TypedRpnItem Span Kind} {node : IndexedExpressionNode}
    (h : Filled items nodes stack) (taken : List Nat) (hstack : stack = taken ++ rest)
    (hfits : Fits nodes.length item node.children)
    (htaken : ∀ top ∈ taken, ∀ below, Below (nodes ++ [node]) top below →
      Below (nodes ++ [node]) nodes.length below) :
    Filled (items ++ [item]) (nodes ++ [node]) (nodes.length :: rest) := by
  have hlength := h.indexed.length
  refine ⟨⟨?_, ?_⟩, ?_, ?_⟩
  · rw [List.length_append, List.length_append, hlength]
    rfl
  · intro index found foundNode hfound hnode
    by_cases hlt : index < nodes.length
    · rw [List.getElem?_append_left (by omega)] at hfound
      rw [List.getElem?_append_left hlt] at hnode
      exact h.indexed.fits index found foundNode hfound hnode
    · have hbound := (List.getElem?_eq_some_iff.mp hnode).1
      rw [List.length_append, List.length_singleton] at hbound
      have heq : index = nodes.length := by omega
      rw [heq, List.getElem?_concat_length] at hnode
      rw [heq, ← hlength, List.getElem?_concat_length] at hfound
      cases hnode
      cases hfound
      rw [heq]
      exact hfits
  · intro index hmem
    rw [List.length_append, List.length_singleton]
    rcases List.mem_cons.mp hmem with heq | hmem
    · omega
    · have hheld := h.held index (hstack ▸ List.mem_append_right taken hmem)
      omega
  · intro index hbound
    rw [List.length_append, List.length_singleton] at hbound
    by_cases hlt : index < nodes.length
    · obtain ⟨top, htop, hbelow⟩ := h.covered index hlt
      rw [hstack] at htop
      rcases List.mem_append.mp htop with htop | htop
      · exact ⟨nodes.length, List.mem_cons_self, htaken top htop index hbelow.append⟩
      · exact ⟨top, List.mem_cons_of_mem _ htop, hbelow.append⟩
    · have heq : index = nodes.length := by omega
      rw [heq]
      exact ⟨nodes.length, List.mem_cons_self, .self _⟩

theorem Filled.operator {items : List (TypedRpnItem Span Kind)} {stack stack' : List Nat}
    {item : TypedRpnItem Span Kind} {node : IndexedExpressionNode} {operator : Operator}
    {span : Option Span} (h : Filled items nodes stack)
    (hfits : ∀ children, Fits nodes.length item children ↔
      Fits nodes.length (.Operator operator span : TypedRpnItem Span Kind) children)
    (hindex : indexOperator operator span nodes stack = .ok (node, stack')) :
    Filled (items ++ [item]) (nodes ++ [node]) (nodes.length :: stack') := by
  have hself : (nodes ++ [node])[nodes.length]? = some node := List.getElem?_concat_length
  rw [indexOperator.eq_def] at hindex
  simp only [] at hindex
  split at hindex
  · split at hindex
    · cases hindex
    · next child rest =>
        cases hindex
        have hchild := h.held child List.mem_cons_self
        refine h.push [child] rfl ((hfits _).mpr hchild) fun top htop below hbelow => ?_
        rw [List.mem_singleton.mp htop] at hbelow
        exact .unary hself rfl hbelow
  · split at hindex
    · cases hindex
    · cases hindex
    · next right left rest =>
        cases hindex
        have hright := h.held right List.mem_cons_self
        have hleft := h.held left (List.mem_cons_of_mem _ List.mem_cons_self)
        refine h.push [right, left] rfl ((hfits _).mpr ⟨hleft, hright⟩)
          fun top htop below hbelow => ?_
        rcases List.mem_cons.mp htop with heq | htop
        · rw [heq] at hbelow
          exact .right hself rfl hbelow
        · rw [List.mem_singleton.mp htop] at hbelow
          exact .left hself rfl hbelow

theorem Filled.item {items : List (TypedRpnItem Span Kind)} {stack stack' : List Nat}
    {nodes' : List IndexedExpressionNode} {item : TypedRpnItem Span Kind}
    (h : Filled items nodes stack)
    (hindex : indexItem (nodes, stack) item.untyped = .ok (nodes', stack')) :
    Filled (items ++ [item]) nodes' stack' := by
  have hleaf : ∀ literalOnly, Fits nodes.length item .Leaf →
      Filled (items ++ [item]) (nodes ++ [⟨.Leaf, literalOnly⟩]) (nodes.length :: stack) := by
    intro literalOnly hfits
    exact h.push [] rfl hfits fun top htop => absurd htop List.not_mem_nil
  rw [indexItem.eq_def] at hindex
  cases item with
  | Operand expression =>
      cases hindex
      exact hleaf false rfl
  | PendingNumericLiteral token span =>
      cases hindex
      exact hleaf true rfl
  | Operator operator span =>
      obtain ⟨found, hfound, hindex⟩ := bind_eq_ok.mp hindex
      cases hindex
      exact h.operator (fun _ => Iff.rfl) hfound
  | ResolvedOperator operation =>
      obtain ⟨found, hfound, hindex⟩ := bind_eq_ok.mp hindex
      cases hindex
      refine h.operator (fun children => ?_) hfound
      cases children with
      | _ => exact Iff.rfl
  | _ => cases hindex

theorem indexExpressionNodes_filled {items : List (TypedRpnItem Span Kind)} {stack : List Nat}
    (h : indexExpressionNodes (items.map TypedRpnItem.untyped) = .ok (nodes, stack)) :
    Filled items nodes stack := by
  have hrest : ∀ (rest items : List (TypedRpnItem Span Kind)) nodes₀ stack₀,
      Filled items nodes₀ stack₀ →
      (rest.map TypedRpnItem.untyped).foldlM indexItem (nodes₀, stack₀) = .ok (nodes, stack) →
      Filled (items ++ rest) nodes stack := by
    intro rest
    induction rest with
    | nil =>
        intro items nodes₀ stack₀ hfilled hrun
        cases hrun
        rw [List.append_nil]
        exact hfilled
    | cons item rest ih =>
        intro items nodes₀ stack₀ hfilled hrun
        rw [List.map_cons, List.foldlM_cons] at hrun
        obtain ⟨next, hnext, hrun⟩ := bind_eq_ok.mp hrun
        have hall := ih (items ++ [item]) next.1 next.2 (hfilled.item hnext) hrun
        rw [List.append_assoc] at hall
        exact hall
  refine hrest items [] [] [] ⟨⟨rfl, fun index item node hitem => ?_⟩, ?_, ?_⟩ h
  · cases hitem
  · exact fun index hmem => absurd hmem List.not_mem_nil
  · exact fun index hlt => absurd hlt (Nat.not_lt_zero index)

/-! ## The list of an expression -/

/-- The state that typing starts in. -/
def TypingState.indexed (items : List (TypedRpnItem Span Kind)) (nodes : List IndexedExpressionNode)
    (expressions : List (List TypeId)) : TypingState Span Kind :=
  ⟨items, nodes.map fun _ => none, expressions, []⟩

theorem TypingState.indexed_underway {items : List (TypedRpnItem Span Kind)}
    (h : Indexed items nodes) (expressions : List (List TypeId)) :
    Underway nodes items (TypingState.indexed items nodes expressions) := by
  refine ⟨h, List.length_map _, fun index typeId htype => ?_, List.nodup_nil,
    fun _ _ hitem _ => hitem, fun index => ⟨fun hmem => absurd hmem List.not_mem_nil, ?_⟩⟩
  · have htype' : (nodes.map fun _ => (none : Option TypeId))[index]? = some (some typeId) := htype
    rw [List.getElem?_map] at htype'
    obtain ⟨_, _, hnone⟩ := Option.map_eq_some_iff.mp htype'
    cases hnone
  · intro hpending
    obtain ⟨⟨item, hitem, hliteral⟩, hsettled⟩ := hpending
    have hopen := hsettled item hitem
    rw [hliteral] at hopen
    cases hopen

/-- Typing a list that indexes to one root ends, and fails only as an operand, a
literal or the policy does; or every item ends as an operand or a resolved
operator of the type recorded for its node, each literal materialised once. -/
theorem operator_typing_resolves_every_node (services : TypingServices Span Kind E)
    (items : List (TypedRpnItem Span Kind)) (expressions : List (List TypeId))
    (nodes : List IndexedExpressionNode) (root : Nat)
    (destination : Option PendingLiteralDestination)
    (hindex : indexExpressionNodes (items.map TypedRpnItem.untyped) = .ok (nodes, [root])) :
    ∃ turns outcome,
      (∀ fuel, turns ≤ fuel → resolveIndexedExpression services nodes fuel root destination
        (TypingState.indexed items nodes expressions) = some outcome) ∧
      (∀ failure, outcome = .error failure → failure.Reported) ∧
      ∀ final, outcome = .ok final → final.items.length = items.length ∧
        (∀ index, index < items.length → Done final index) ∧ final.materialised.Nodup ∧
        ∀ index, index ∈ final.materialised ↔
          ∃ item, items[index]? = some item ∧ item.isPendingLiteral = true := by
  have hfilled := indexExpressionNodes_filled hindex
  have hlength := hfilled.indexed.length
  have hroot := hfilled.held root List.mem_cons_self
  have hstart := TypingState.indexed_underway hfilled.indexed expressions
  obtain ⟨turns, outcome, hruns, hfails, hends⟩ :=
    Handles.run (visits services nodes items root hroot destination _ hstart)
  refine ⟨turns, outcome, hruns, hfails, fun final hfinal => ?_⟩
  obtain ⟨hunderway, _, hsubtree⟩ := hends final hfinal
  have hdone : ∀ index, index < items.length → Done final index := by
    intro index hlt
    obtain ⟨top, htop, hbelow⟩ := hfilled.covered index (by omega)
    rw [List.mem_singleton.mp htop] at hbelow
    exact hsubtree index hbelow
  refine ⟨?_, hdone, hunderway.once, fun index => ?_⟩
  · rw [hlength]
    exact hunderway.indexed.length
  · rw [hunderway.materialised]
    constructor
    · exact fun hmem => hmem.1
    · intro hpending
      refine ⟨hpending, fun item hitem => ?_⟩
      obtain ⟨found, hfound, _⟩ := hpending
      obtain ⟨item', typeId, hitem', _, htype⟩ :=
        hdone index (List.getElem?_eq_some_iff.mp hfound).1
      cases hitem.symm.trans hitem'
      cases item with
      | PendingNumericLiteral token span => exact absurd htype id
      | _ => rfl

/-- A service that admits every literal and types an operator by its left operand. -/
def leftTypedServices : TypingServices Unit Unit Unit where
  environment := NumericConstruction.fixedScalarTypes
  materializes _ _ _ := .ok ()
  resolveUnaryOperatorType _ typeId _ := .ok typeId
  resolveBinaryOperatorType leftType rightType _ _ :=
    if leftType = rightType then .ok leftType else .error ()
  operationKind _ _ _ _ _ := .ok ()

/-- `x + 2`, with an operand `x`. -/
def sumItems : List (TypedRpnItem Unit Unit) :=
  [.Operand ⟨0⟩, .PendingNumericLiteral ⟨.WholeNumber, .Positive, ['2']⟩ none, .Operator .Add none]

theorem operator_typing_resolves_every_node_sum :
    ∃ turns outcome,
      (∀ fuel, turns ≤ fuel → resolveIndexedExpression leftTypedServices
        [⟨.Leaf, false⟩, ⟨.Leaf, true⟩, ⟨.Binary 0 1, false⟩] fuel 2 none
        (TypingState.indexed sumItems [⟨.Leaf, false⟩, ⟨.Leaf, true⟩, ⟨.Binary 0 1, false⟩]
          [[fixedScalarTypeId .I64]]) = some outcome) ∧
      (∀ failure, outcome = .error failure → failure.Reported) ∧
      ∀ final, outcome = .ok final → final.items.length = sumItems.length ∧
        (∀ index, index < sumItems.length → Done final index) ∧ final.materialised.Nodup ∧
        ∀ index, index ∈ final.materialised ↔
          ∃ item, sumItems[index]? = some item ∧ item.isPendingLiteral = true :=
  operator_typing_resolves_every_node leftTypedServices sumItems [[fixedScalarTypeId .I64]] _ 2
    none rfl

end Moth.Ast.OperatorTyping
