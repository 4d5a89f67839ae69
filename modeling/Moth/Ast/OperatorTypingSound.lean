import Moth.Ast.OperatorTyping
import Moth.Lib.Result

/-!
# Operator typing visits every node

Every frame for a node ends, and when it is worked off the node and all nodes
below it are resolved and typed, whichever child was scheduled first. A node is
typed only after the nodes below it, so a frame may skip a typed child, and
typing a subtree once more changes nothing in it.
-/

namespace Moth.Ast.OperatorTyping

open Moth.Ast Moth.ConstEval Moth.Datatypes Moth.Lexical Moth.Lib

variable {Span Kind E : Type}

/-! ## Indexed nodes -/

/-- The nodes below a node, itself among them. -/
inductive Below (nodes : List IndexedExpressionNode) : Nat → Nat → Prop
  | self (index : Nat) : Below nodes index index
  | unary {index child below : Nat} {node : IndexedExpressionNode}
      (hnode : nodes[index]? = some node) (hchildren : node.children = .Unary child)
      (h : Below nodes child below) : Below nodes index below
  | left {index left right below : Nat} {node : IndexedExpressionNode}
      (hnode : nodes[index]? = some node) (hchildren : node.children = .Binary left right)
      (h : Below nodes left below) : Below nodes index below
  | right {index left right below : Nat} {node : IndexedExpressionNode}
      (hnode : nodes[index]? = some node) (hchildren : node.children = .Binary left right)
      (h : Below nodes right below) : Below nodes index below

/-- The children that an item at `index` may have. -/
def Fits (index : Nat) : TypedRpnItem Span Kind → ExpressionChildren → Prop
  | .Operand _, children => children = .Leaf
  | .PendingNumericLiteral _ _, children => children = .Leaf
  | .Operator _ _, .Unary child => child < index
  | .Operator _ _, .Binary left right => left < index ∧ right < index
  | .ResolvedOperator _, .Unary child => child < index
  | .ResolvedOperator _, .Binary left right => left < index ∧ right < index
  | _, _ => False

/-- Items beside the nodes that they were indexed as. -/
structure Indexed (items : List (TypedRpnItem Span Kind)) (nodes : List IndexedExpressionNode) :
    Prop where
  length : items.length = nodes.length
  fits : ∀ (index : Nat) item node, items[index]? = some item → nodes[index]? = some node →
    Fits index item node.children

/-- The type of an item that is resolved. -/
def HasType (expressions : List (List TypeId)) : TypedRpnItem Span Kind → TypeId → Prop
  | .Operand expression, typeId => expressions[expression.index]? = some [typeId]
  | .ResolvedOperator operation, typeId => operation.resultType = typeId
  | _, _ => False

/-- A node whose item is resolved and whose recorded type is that of its item. -/
def Done (state : TypingState Span Kind) (index : Nat) : Prop :=
  ∃ item typeId, state.items[index]? = some item ∧ state.types[index]? = some (some typeId) ∧
    HasType state.expressions item typeId

def SubtreeDone (nodes : List IndexedExpressionNode) (state : TypingState Span Kind)
    (index : Nat) : Prop :=
  ∀ below, Below nodes index below → Done state below

/-- What stays done. -/
def Grows (state state' : TypingState Span Kind) : Prop :=
  ∀ index, Done state index → Done state' index

/-- A state on the way: a typed node has its subtree done, and the literals
materialised so far are those that are pending no more, once each. -/
structure Underway (nodes : List IndexedExpressionNode) (start : List (TypedRpnItem Span Kind))
    (state : TypingState Span Kind) : Prop where
  indexed : Indexed state.items nodes
  types : state.types.length = nodes.length
  typed : ∀ (index : Nat) typeId, state.types[index]? = some (some typeId) →
    SubtreeDone nodes state index
  once : state.materialised.Nodup
  pending : ∀ (index : Nat) item, state.items[index]? = some item → item.isPendingLiteral = true →
    start[index]? = some item
  materialised : ∀ index, index ∈ state.materialised ↔
    (∃ item, start[index]? = some item ∧ item.isPendingLiteral = true) ∧
      ∀ item, state.items[index]? = some item → item.isPendingLiteral = false

section Steps

variable {nodes : List IndexedExpressionNode} {start : List (TypedRpnItem Span Kind)}
  {state state' state'' : TypingState Span Kind} {index : Nat}

theorem Grows.refl (state : TypingState Span Kind) : Grows state state :=
  fun _ => id

theorem Grows.trans (h : Grows state state') (h' : Grows state' state'') : Grows state state'' :=
  fun index hdone => h' index (h index hdone)

theorem Grows.subtree (h : Grows state state') (hdone : SubtreeDone nodes state index) :
    SubtreeDone nodes state' index :=
  fun below hbelow => h below (hdone below hbelow)

theorem Indexed.item (h : Indexed state.items nodes) (hindex : index < nodes.length) :
    ∃ item node, state.items[index]? = some item ∧ nodes[index]? = some node ∧
      Fits index item node.children := by
  have hitem : index < state.items.length := by
    rw [h.length]
    exact hindex
  have hitem' := List.getElem?_eq_getElem hitem
  have hnode := List.getElem?_eq_getElem hindex
  exact ⟨_, _, hitem', hnode, h.fits index _ _ hitem' hnode⟩

theorem recordType_done {item : TypedRpnItem Span Kind} {typeId : TypeId}
    (hitem : state.items[index]? = some item) (hindex : index < state.types.length)
    (htype : HasType state.expressions item typeId) :
    Grows state (recordType state index typeId) ∧ Done (recordType state index typeId) index := by
  have hself : Done (recordType state index typeId) index :=
    ⟨item, typeId, hitem, List.getElem?_set_self hindex, htype⟩
  refine ⟨fun other hdone => ?_, hself⟩
  by_cases hother : other = index
  · rw [hother]
    exact hself
  · obtain ⟨item', typeId', hitem', htypes, htype'⟩ := hdone
    refine ⟨item', typeId', hitem', ?_, htype'⟩
    show (state.types.set index (some typeId))[other]? = _
    rw [List.getElem?_set_ne (Ne.symm hother)]
    exact htypes

/-- Recording the type of a resolved item whose subtree is done otherwise. -/
theorem Underway.record (h : Underway nodes start state) {item : TypedRpnItem Span Kind}
    {typeId : TypeId} (hitem : state.items[index]? = some item)
    (htype : HasType state.expressions item typeId)
    (hbelow : ∀ below, Below nodes index below → below ≠ index → Done state below) :
    Underway nodes start (recordType state index typeId) ∧
      Grows state (recordType state index typeId) ∧
      SubtreeDone nodes (recordType state index typeId) index := by
  have hindex : index < state.types.length := by
    rw [h.types, ← h.indexed.length]
    exact (List.getElem?_eq_some_iff.mp hitem).1
  obtain ⟨hgrows, hself⟩ := recordType_done hitem hindex htype
  have hsubtree : SubtreeDone nodes (recordType state index typeId) index := by
    intro below hmem
    by_cases heq : below = index
    · rw [heq]
      exact hself
    · exact hgrows below (hbelow below hmem heq)
  refine ⟨⟨h.indexed, ?_, ?_, h.once, h.pending, h.materialised⟩, hgrows, hsubtree⟩
  · show (state.types.set index (some typeId)).length = _
    rw [List.length_set]
    exact h.types
  · intro other typeId' hother
    by_cases heq : other = index
    · rw [heq]
      exact hsubtree
    · have hother' : (state.types.set index (some typeId))[other]? = some (some typeId') := hother
      rw [List.getElem?_set_ne (Ne.symm heq)] at hother'
      exact hgrows.subtree (h.typed other typeId' hother')

/-- Writing a resolved item over one that was not. -/
theorem Underway.write (h : Underway nodes start state) {item : TypedRpnItem Span Kind}
    (item' : TypedRpnItem Span Kind) (expressions : List (List TypeId)) (materialised : List Nat)
    (hitem : state.items[index]? = some item)
    (hopen : ∀ typeId, ¬HasType state.expressions item typeId)
    (hfits : ∀ children, Fits index item children → Fits index item' children)
    (hpending : item'.isPendingLiteral = false)
    (hexpressions : state.expressions <+: expressions)
    (honce : materialised.Nodup)
    (hmaterialised : ∀ other, other ∈ materialised ↔
      other ∈ state.materialised ∨ other = index ∧ item.isPendingLiteral = true) :
    Underway nodes start { state with
        items := state.items.set index item', expressions, materialised } ∧
      Grows state { state with
        items := state.items.set index item', expressions, materialised } := by
  have hlt := (List.getElem?_eq_some_iff.mp hitem).1
  have hgrows : Grows state { state with
      items := state.items.set index item', expressions, materialised } := by
    intro other hdone
    obtain ⟨found, typeId, hfound, htypes, htype⟩ := hdone
    have hne : other ≠ index := by
      intro heq
      rw [heq, hitem] at hfound
      cases hfound
      exact hopen typeId htype
    refine ⟨found, typeId, ?_, htypes, ?_⟩
    · show (state.items.set index item')[other]? = some found
      rw [List.getElem?_set_ne (Ne.symm hne)]
      exact hfound
    · cases found with
      | Operand expression =>
          obtain ⟨more, hmore⟩ := hexpressions
          show expressions[expression.index]? = some [typeId]
          rw [← hmore, List.getElem?_append_left (List.getElem?_eq_some_iff.mp htype).1]
          exact htype
      | ResolvedOperator operation => exact htype
      | _ => exact absurd htype id
  have hset : ∀ other, other ≠ index →
      (state.items.set index item')[other]? = state.items[other]? :=
    fun other hne => List.getElem?_set_ne (Ne.symm hne)
  have hself : (state.items.set index item')[index]? = some item' := List.getElem?_set_self hlt
  refine ⟨⟨⟨?_, ?_⟩, h.types, ?_, honce, ?_, ?_⟩, hgrows⟩
  · show (state.items.set index item').length = _
    rw [List.length_set]
    exact h.indexed.length
  · intro other found node hfound hnode
    by_cases hne : other = index
    · subst hne
      rw [hself] at hfound
      cases hfound
      exact hfits _ (h.indexed.fits other item node hitem hnode)
    · rw [hset other hne] at hfound
      exact h.indexed.fits other found node hfound hnode
  · exact fun other typeId htypes => hgrows.subtree (h.typed other typeId htypes)
  · intro other found hfound hisPending
    by_cases hne : other = index
    · subst hne
      rw [hself] at hfound
      cases hfound
      rw [hpending] at hisPending
      cases hisPending
    · rw [hset other hne] at hfound
      exact h.pending other found hfound hisPending
  · intro other
    rw [hmaterialised, h.materialised]
    by_cases hne : other = index
    · subst hne
      constructor
      · intro hmem
        refine ⟨?_, fun found hfound => ?_⟩
        · rcases hmem with hmem | hmem
          · exact hmem.1
          · exact ⟨item, h.pending other item hitem hmem.2, hmem.2⟩
        · rw [hself] at hfound
          cases hfound
          exact hpending
      · intro hmem
        cases hisPending : item.isPendingLiteral with
        | true => exact Or.inr ⟨rfl, rfl⟩
        | false =>
            refine Or.inl ⟨hmem.1, fun found hfound => ?_⟩
            rw [hitem] at hfound
            cases hfound
            exact hisPending
    · constructor
      · intro hmem
        rcases hmem with hmem | hmem
        · refine ⟨hmem.1, fun found hfound => ?_⟩
          rw [hset other hne] at hfound
          exact hmem.2 found hfound
        · exact absurd hmem.1 hne
      · intro hmem
        refine Or.inl ⟨hmem.1, fun found hfound => ?_⟩
        rw [← hset other hne] at hfound
        exact hmem.2 found hfound

end Steps

/-! ## Frames -/

/-- The errors that come from an operand, the policy or a literal. -/
def ResolutionError.Reported : ResolutionError E → Prop
  | .unknownExpression | .invalidValueReceiver _ | .service _ => True
  | .pendingExpressionItem | .indexedOperatorWithoutChildren | .completedOperatorWithoutChildren
  | .lostIndexedOperator | .consumedUnresolvedChild | .indexedNonLiteral => False

section Frames

variable {services : TypingServices Span Kind E} {nodes : List IndexedExpressionNode}
  {start : List (TypedRpnItem Span Kind)} {state : TypingState Span Kind} {index : Nat}

/-- The frames leave a state on the way that kept what was done, with more of it done. -/
def Works (services : TypingServices Span Kind E) (nodes : List IndexedExpressionNode)
    (start : List (TypedRpnItem Span Kind)) (frames : List ResolutionFrame)
    (state : TypingState Span Kind) (reached : TypingState Span Kind → Prop) : Prop :=
  Handles (resolveFrame services nodes) ResolutionError.Reported frames state fun state' =>
    Underway nodes start state' ∧ Grows state state' ∧ reached state'

theorem Works.append {frames more : List ResolutionFrame}
    {reached reached' : TypingState Span Kind → Prop}
    (h : Works services nodes start frames state reached)
    (hmore : ∀ state', Underway nodes start state' → Grows state state' → reached state' →
      Works services nodes start more state' reached') :
    Works services nodes start (frames ++ more) state reached' := by
  refine Handles.append h fun state' hafter => ?_
  obtain ⟨hunderway, hgrows, hreached⟩ := hafter
  refine (hmore state' hunderway hgrows hreached).mono fun state'' hafter => ?_
  exact ⟨hafter.1, hgrows.trans hafter.2.1, hafter.2.2⟩

theorem Works.nil {reached : TypingState Span Kind → Prop} (h : Underway nodes start state)
    (hreached : reached state) : Works services nodes start [] state reached :=
  Handles.nil ⟨h, Grows.refl state, hreached⟩

/-- The visits of a node work, from any state and for any destination. -/
def Visits (services : TypingServices Span Kind E) (nodes : List IndexedExpressionNode)
    (start : List (TypedRpnItem Span Kind)) (index : Nat) : Prop :=
  ∀ destination state, Underway nodes start state →
    Works services nodes start [.Visit index destination] state fun state' =>
      SubtreeDone nodes state' index

theorem Done.resolvedType (h : Done state index) :
    ∃ item typeId, state.items[index]? = some item ∧ HasType state.expressions item typeId ∧
      OperatorTyping.resolvedType (E := E) state index = some (.ok typeId) := by
  obtain ⟨item, typeId, hitem, htypes, htype⟩ := h
  refine ⟨item, typeId, hitem, htype, ?_⟩
  rw [OperatorTyping.resolvedType, htypes]
  rfl

theorem peer_works {literal peer : Nat} {exponentEdge : Bool} {frame : ResolutionFrame}
    (hframe : frame = .VisitPeerLiteral literal peer exponentEdge ∨
      frame = .VisitCompoundPeer literal peer exponentEdge)
    (hvisit : Visits services nodes start literal) (h : Underway nodes start state)
    (hpeer : Done state peer) :
    Works services nodes start [frame] state fun state' => SubtreeDone nodes state' literal := by
  obtain ⟨item, typeId, _, _, hresolved⟩ := hpeer.resolvedType
  have hvisited : ∃ destination, visitPeer services literal peer exponentEdge state
      = some (.ok ([.Visit literal destination], state)) := by
    rw [visitPeer, hresolved]
    exact ⟨_, rfl⟩
  obtain ⟨destination, hvisited⟩ := hvisited
  refine Handles.push ?_ (hvisit destination state h)
  rcases hframe with hframe | hframe
  · rw [hframe]
    exact hvisited
  · rw [hframe]
    exact hvisited

theorem visit_leaf {destination : Option PendingLiteralDestination}
    (h : Underway nodes start state) (hindex : index < nodes.length)
    (hleaf : ∀ operator span, state.items[index]? ≠ some (.Operator operator span))
    (hleaf' : ∀ operation, state.items[index]? ≠ some (.ResolvedOperator operation)) :
    Works services nodes start [.Visit index destination] state fun state' =>
      SubtreeDone nodes state' index := by
  obtain ⟨item, node, hitem, hnode, hfits⟩ := h.indexed.item hindex
  have hbelow : node.children = .Leaf → ∀ below, Below nodes index below → below = index := by
    intro hchildren below hbelow
    cases hbelow with
    | self => rfl
    | unary hnode' hchildren' _ =>
        cases hnode.symm.trans hnode'
        rw [hchildren] at hchildren'
        cases hchildren'
    | left hnode' hchildren' _ =>
        cases hnode.symm.trans hnode'
        rw [hchildren] at hchildren'
        cases hchildren'
    | right hnode' hchildren' _ =>
        cases hnode.symm.trans hnode'
        rw [hchildren] at hchildren'
        cases hchildren'
  cases item with
  | Operand expression =>
      cases hview : requireSingle (E := E) state.expressions expression with
      | error failure =>
          have hstep : resolveFrame services nodes (.Visit index destination) state
              = some (.error failure) := by
            rw [resolveFrame, visit, hitem]
            simp only []
            rw [hview]
          refine Handles.fail hstep ?_
          · rw [requireSingle] at hview
            split at hview
            · cases hview
              trivial
            · cases hview
            · cases hview
              trivial
      | ok typeId =>
          have htype : HasType state.expressions (.Operand expression : TypedRpnItem Span Kind)
              typeId := by
            rw [requireSingle] at hview
            split at hview
            · cases hview
            · next hrow =>
                cases hview
                exact hrow
            · cases hview
          refine Handles.done ?_ (h.record hitem htype fun below hmem hne =>
            absurd (hbelow hfits below hmem) hne)
          rw [resolveFrame, visit, hitem]
          simp only []
          rw [hview]
  | PendingNumericLiteral token span =>
      cases hfit : services.materializes token (materialisedType token destination) span with
      | error failure =>
          have hstep : resolveFrame services nodes (.Visit index destination) state
              = some (.error (.service failure)) := by
            rw [resolveFrame, visit, hitem]
            simp only []
            rw [materializePendingLiteral, hitem]
            simp only []
            rw [hfit]
          exact Handles.fail hstep trivial
      | ok =>
          generalize htypeId : materialisedType token destination = typeId at hfit
          have hmaterialise : materializePendingLiteral services state index destination
              = .ok (typeId, { state with
                  items := state.items.set index (.Operand ⟨state.expressions.length⟩)
                  expressions := state.expressions ++ [[typeId]]
                  materialised := state.materialised ++ [index] }) := by
            rw [materializePendingLiteral, hitem]
            simp only []
            rw [htypeId, hfit]
          have hfresh : index ∉ state.materialised := by
            intro hmem
            have hsettled := ((h.materialised index).mp hmem).2 _ hitem
            cases hsettled
          obtain ⟨hunderway, hgrows⟩ := h.write (.Operand ⟨state.expressions.length⟩)
            (state.expressions ++ [[typeId]]) (state.materialised ++ [index]) hitem (fun _ => id)
            (fun children hchildren => hchildren) rfl (List.prefix_append _ _)
            (List.nodup_append.mpr ⟨h.once, List.nodup_singleton index, fun a ha b hb => by
              rw [List.mem_singleton.mp hb]
              intro heq
              exact hfresh (heq ▸ ha)⟩)
            (fun other => by
              rw [List.mem_append, List.mem_singleton]
              exact or_congr_right ⟨fun heq => ⟨heq, rfl⟩, fun heq => heq.1⟩)
          have hlt := (List.getElem?_eq_some_iff.mp hitem).1
          have htype : HasType (state.expressions ++ [[typeId]])
              (.Operand ⟨state.expressions.length⟩ : TypedRpnItem Span Kind) typeId :=
            List.getElem?_concat_length
          obtain ⟨hrecorded, hgrows', hsubtree⟩ := hunderway.record
            (List.getElem?_set_self hlt) htype fun below hmem hne =>
              absurd (hbelow hfits below hmem) hne
          refine Handles.done ?_ ⟨hrecorded, hgrows.trans hgrows', hsubtree⟩
          rw [resolveFrame, visit, hitem]
          simp only []
          rw [hmaterialise]
  | Operator operator span => exact absurd hitem (hleaf operator span)
  | ResolvedOperator operation => exact absurd hitem (hleaf' operation)
  | _ => exact absurd hfits id

/-- A shape whose sides are the two children, in either order. -/
def Sides (left right : Nat) : Option LiteralPeerShape → Prop
  | none => True
  | some (.LoneLiteral literal peer) =>
      literal = left ∧ peer = right ∨ literal = right ∧ peer = left
  | some (.CompoundContextual compound peer) =>
      compound = left ∧ peer = right ∨ compound = right ∧ peer = left

theorem literalPeerShape_sides (h : Underway nodes start state) {left right : Nat}
    (hleft : left < nodes.length) (hright : right < nodes.length) :
    ∃ shape, literalPeerShape nodes state.items left right = some shape ∧
      Sides left right shape := by
  obtain ⟨leftItem, leftNode, hleftItem, hleftNode, _⟩ := h.indexed.item hleft
  obtain ⟨rightItem, rightNode, hrightItem, hrightNode, _⟩ := h.indexed.item hright
  rw [literalPeerShape, hleftItem, hrightItem, hleftNode, hrightNode]
  simp only [Option.bind_eq_bind, Option.bind_some]
  split
  · split
    · exact ⟨_, rfl, Or.inl ⟨rfl, rfl⟩⟩
    · exact ⟨_, rfl, Or.inr ⟨rfl, rfl⟩⟩
  · split
    · exact ⟨_, rfl, trivial⟩
    · split
      · split
        · exact ⟨_, rfl, Or.inl ⟨rfl, rfl⟩⟩
        · exact ⟨_, rfl, Or.inr ⟨rfl, rfl⟩⟩
      · exact ⟨_, rfl, trivial⟩

/-- Both children done. -/
def BothDone (nodes : List IndexedExpressionNode) (left right : Nat)
    (state : TypingState Span Kind) : Prop :=
  SubtreeDone nodes state left ∧ SubtreeDone nodes state right

section Children

variable {left right : Nat} (hleft : Visits services nodes start left)
  (hright : Visits services nodes start right)

include hleft hright

theorem both_work (h : Underway nodes start state)
    (leftDestination rightDestination : Option PendingLiteralDestination) :
    Works services nodes start [.Visit left leftDestination, .Visit right rightDestination] state
      (BothDone nodes left right) := by
  refine Works.append (hleft leftDestination state h) fun state' h' _ hdone => ?_
  refine (hright rightDestination state' h').mono fun state'' hafter => ?_
  exact ⟨hafter.1, hafter.2.1, hafter.2.1.subtree hdone, hafter.2.2⟩

theorem literal_works {literal peer : Nat} {exponentEdge : Bool} {frames : List ResolutionFrame}
    {frame : ResolutionFrame}
    (hsides : literal = left ∧ peer = right ∨ literal = right ∧ peer = left)
    (hframe : frame = .VisitPeerLiteral literal peer exponentEdge ∨
      frame = .VisitCompoundPeer literal peer exponentEdge)
    (hpeer : Works services nodes start frames state fun state' => SubtreeDone nodes state' peer) :
    Works services nodes start (frames ++ [frame]) state (BothDone nodes left right) := by
  have hliteral : Visits services nodes start literal := by
    rcases hsides with hsides | hsides
    · rw [hsides.1]
      exact hleft
    · rw [hsides.1]
      exact hright
  refine Works.append hpeer fun state' h' _ hdone => ?_
  refine (peer_works hframe hliteral h' (hdone peer (.self peer))).mono fun state'' hafter => ?_
  refine ⟨hafter.1, hafter.2.1, ?_⟩
  have hdone' := hafter.2.1.subtree hdone
  rcases hsides with hsides | hsides
  · rw [hsides.1] at hafter
    rw [hsides.2] at hdone'
    exact ⟨hafter.2.2, hdone'⟩
  · rw [hsides.1] at hafter
    rw [hsides.2] at hdone'
    exact ⟨hdone', hafter.2.2⟩

theorem untyped_works {child : Nat} (hchild : child = left ∨ child = right)
    (h : Underway nodes start state) (hlt : child < nodes.length) :
    ∃ frames, visitUntyped state child = some frames ∧
      Works services nodes start frames state fun state' => SubtreeDone nodes state' child := by
  have hlength := h.types
  have htypes : state.types[child]? = some state.types[child] := List.getElem?_eq_getElem (by omega)
  generalize state.types[child] = typed at htypes
  rw [visitUntyped, htypes]
  cases typed with
  | some typeId => exact ⟨[], rfl, Works.nil h (h.typed child typeId htypes)⟩
  | none =>
      refine ⟨_, rfl, ?_⟩
      rcases hchild with hchild | hchild
      · rw [hchild]
        exact hleft none state h
      · rw [hchild]
        exact hright none state h

end Children

end Frames

end Moth.Ast.OperatorTyping
