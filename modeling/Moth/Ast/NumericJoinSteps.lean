import Moth.Ast.NumericJoins

/-!
# What a pair of shapes is split into

A walk over a pair of shapes, of a pattern beside a shape, or of a projection
either joins two classes, or notes receivers, or goes on with other pairs.
Which of these, and with which pairs, the tables alone decide, so the actions
of a walk are a list that no class state changes.
-/

namespace Moth.Ast.NumericConstruction

open Moth.Lib Moth.Datatypes Moth.Source

/-! ## Tables -/

/-- Tables whose nodes stand above their children, with the edges of a
substitution in its range. -/
structure ShapeTables (state : NumericConstructionState) : Prop where
  nodes : ∀ (id : Nat) node, state.shapes[id]? = some node →
    NodeInside state.classes.length state.declaredBindings id node
  ranges : ∀ (id : Nat) declared start end_,
    state.shapes[id]? = some (.DeclaredSubstitution declared start end_) →
    start ≤ end_ ∧ end_ ≤ state.declaredBindings.length
  orders : state.shapeAuthoredOrder.length = state.shapes.length

/-! ## Two walks beside one receiver -/

section Together

variable {σ τ : Type} {R : σ → τ → Prop} {types : TypeStore} {shapes : List KnownShape}
  {bindings : List KnownShapeBinding}

/-- Two walks that visit the same nodes below `bound` and stay related. -/
def WalksTogether (R : σ → τ → Prop) (bound : Nat)
    (walk : σ → Nat → TypeId → List (Nat × TypeId) → Option (σ × List (Nat × TypeId)))
    (walk' : τ → Nat → TypeId → List (Nat × TypeId) → Option (τ × List (Nat × TypeId))) :
    Prop :=
  ∀ a b shape receiver visited, shape < bound → R a b →
    ∃ a' b' visited', walk a shape receiver visited = some (a', visited') ∧
      walk' b shape receiver visited = some (b', visited') ∧ R a' b'

variable {bound : Nat}
  {walk : σ → Nat → TypeId → List (Nat × TypeId) → Option (σ × List (Nat × TypeId))}
  {walk' : τ → Nat → TypeId → List (Nat × TypeId) → Option (τ × List (Nat × TypeId))}

theorem walkEdges_together (h : WalksTogether R bound walk walk')
    (projected : GenericTypeBindings) (visitKey : Nat × TypeId) (indices : List Nat)
    (hin : ∀ index ∈ indices, ∃ edge, bindings[index]? = some edge ∧ edge.shape < bound)
    (descending : Bool) {a : σ} {b : τ} (visited : List (Nat × TypeId)) (hab : R a b) :
    ∃ a' b' visited',
      walkEdges bindings walk projected visitKey indices descending a visited
        = some (a', visited') ∧
      walkEdges bindings walk' projected visitKey indices descending b visited
        = some (b', visited') ∧ R a' b' := by
  induction indices generalizing descending a b visited with
  | nil => exact ⟨a, b, visited, rfl, rfl, hab⟩
  | cons index rest ih =>
      obtain ⟨edge, hedge, hshape⟩ := hin index List.mem_cons_self
      have hrest : ∀ i ∈ rest, ∃ edge, bindings[i]? = some edge ∧ edge.shape < bound :=
        fun i hi => hin i (List.mem_cons_of_mem index hi)
      rw [walkEdges, walkEdges, hedge]
      simp only []
      cases hparameter : projected.get edge.parameter with
      | none => exact ih hrest descending visited hab
      | some parameterType =>
          simp only []
          by_cases hseen : descending = false ∧ visitKey ∈ visited
          · rw [if_pos hseen, if_pos hseen]
            exact ⟨a, b, visited, rfl, rfl, hab⟩
          · rw [if_neg hseen, if_neg hseen]
            obtain ⟨a', b', visited', ha', hb', hab'⟩ := h a b edge.shape parameterType
              (if descending then visited else visitKey :: visited) hshape hab
            rw [ha', hb']
            exact ih hrest true visited' hab'

variable {note : σ → Nat → TypeId → Option σ} {note' : τ → Nat → TypeId → Option τ}
  {classes : Nat}

theorem walkReceiverAt_together (h : WalksTogether R bound walk walk')
    (hnote : ∀ a b c receiver, c < classes → R a b →
      ∃ a' b', note a c receiver = some a' ∧ note' b c receiver = some b' ∧ R a' b')
    {node : KnownShape} (hnode : NodeInside classes bindings bound node) {a : σ} {b : τ}
    (shape : Nat) (receiver : TypeId) (visited : List (Nat × TypeId)) (hab : R a b) :
    ∃ a' b' visited',
      walkReceiverAt types bindings note walk a shape receiver visited node
        = some (a', visited') ∧
      walkReceiverAt types bindings note' walk' b shape receiver visited node
        = some (b', visited') ∧ R a' b' := by
  cases node with
  | Concrete typeId span => exact ⟨a, b, visited, rfl, rfl, hab⟩
  | Numeric class_ =>
      rw [walkReceiverAt, walkReceiverAt]
      by_cases hseen : visited ≠ [] ∧ (shape, receiver) ∈ visited
      · rw [if_pos hseen, if_pos hseen]
        exact ⟨a, b, visited, rfl, rfl, hab⟩
      · rw [if_neg hseen, if_neg hseen]
        obtain ⟨a', b', ha', hb', hab'⟩ :=
          hnote a b class_ (peeledReceiver types receiver) hnode hab
        rw [ha', hb']
        exact ⟨a', b', _, rfl, rfl, hab'⟩
  | Collection element fixedCapacity =>
      rw [walkReceiverAt, walkReceiverAt]
      cases types.collectionShape (peeledReceiver types receiver) with
      | none => exact ⟨a, b, visited, rfl, rfl, hab⟩
      | some collection =>
          simp only []
          by_cases hseen : (shape, receiver) ∈ visited
          · rw [if_pos hseen, if_pos hseen]
            exact ⟨a, b, visited, rfl, rfl, hab⟩
          · rw [if_neg hseen, if_neg hseen]
            exact h a b element collection.elementType _ hnode hab
  | Map key value =>
      rw [walkReceiverAt, walkReceiverAt]
      cases types.mapShape (peeledReceiver types receiver) with
      | none => exact ⟨a, b, visited, rfl, rfl, hab⟩
      | some map =>
          simp only []
          by_cases hseen : (shape, receiver) ∈ visited
          · rw [if_pos hseen, if_pos hseen]
            exact ⟨a, b, visited, rfl, rfl, hab⟩
          · rw [if_neg hseen, if_neg hseen]
            obtain ⟨a', b', visited', ha', hb', hab'⟩ :=
              h a b key map.keyType ((shape, receiver) :: visited) hnode.1 hab
            rw [ha', hb']
            exact h a' b' value map.valueType visited' hnode.2 hab'
  | Optional inner =>
      rw [walkReceiverAt, walkReceiverAt]
      by_cases hseen : (shape, receiver) ∈ visited
      · rw [if_pos hseen, if_pos hseen]
        exact ⟨a, b, visited, rfl, rfl, hab⟩
      · rw [if_neg hseen, if_neg hseen]
        exact h a b inner (peeledReceiver types receiver) _ hnode hab
  | DeclaredSubstitution declaredTypeId start end_ =>
      rw [walkReceiverAt, walkReceiverAt]
      cases declaredProjection types declaredTypeId (peeledReceiver types receiver) with
      | none => exact ⟨a, b, visited, rfl, rfl, hab⟩
      | some projected =>
          refine walkEdges_together h projected (shape, receiver) _ ?_ false visited hab
          intro index hindex
          have hrange : start ≤ index ∧ index < start + (end_ - start) :=
            List.mem_range'_1.mp hindex
          exact hnode index hrange.1 (by omega)

theorem walkReceiver_together
    (hnote : ∀ a b c receiver, c < classes → R a b →
      ∃ a' b', note a c receiver = some a' ∧ note' b c receiver = some b' ∧ R a' b')
    (hnodes : ∀ (id : Nat) node, shapes[id]? = some node → NodeInside classes bindings id node)
    (fuel : Nat) (hfuel : fuel ≤ shapes.length) :
    WalksTogether R fuel (walkReceiver types shapes bindings note fuel)
      (walkReceiver types shapes bindings note' fuel) := by
  induction fuel with
  | zero => exact fun _ _ _ _ _ hshape => absurd hshape (Nat.not_lt_zero _)
  | succ fuel ih =>
      intro a b shape receiver visited hshape hab
      have hnode : shapes[shape]? = some shapes[shape] := List.getElem?_eq_getElem (by omega)
      rw [walkReceiver, walkReceiver, hnode]
      have hbelow : WalksTogether R shape (walkReceiver types shapes bindings note fuel)
          (walkReceiver types shapes bindings note' fuel) :=
        fun a b child receiver visited hchild hab =>
          ih (by omega) a b child receiver visited (by omega) hab
      exact walkReceiverAt_together hbelow hnote (hnodes shape _ hnode) shape receiver visited hab

theorem witnessEdges_together (h : WalksTogether R bound walk walk')
    (matched : GenericTypeBindings) (indices : List Nat)
    (hin : ∀ index ∈ indices, ∃ edge, bindings[index]? = some edge ∧ edge.shape < bound)
    {a : σ} {b : τ} (visited : List (Nat × TypeId)) (hab : R a b) :
    ∃ a' b', witnessEdges bindings walk matched indices a visited = some a' ∧
      witnessEdges bindings walk' matched indices b visited = some b' ∧ R a' b' := by
  induction indices generalizing a b visited with
  | nil => exact ⟨a, b, rfl, rfl, hab⟩
  | cons index rest ih =>
      obtain ⟨edge, hedge, hshape⟩ := hin index List.mem_cons_self
      have hrest : ∀ i ∈ rest, ∃ edge, bindings[i]? = some edge ∧ edge.shape < bound :=
        fun i hi => hin i (List.mem_cons_of_mem index hi)
      rw [witnessEdges, witnessEdges, hedge]
      simp only []
      cases hparameter : matched.get edge.parameter with
      | none => exact ih hrest visited hab
      | some parameterType =>
          simp only []
          obtain ⟨a', b', visited', ha', hb', hab'⟩ :=
            h a b edge.shape parameterType visited hshape hab
          rw [ha', hb']
          exact ih hrest visited' hab'

end Together

/-! ## Steps -/

namespace NumericConstructionState

variable (self : NumericConstructionState) (types : TypeStore)

/-- The walk that lists the numeric leaves beside the receivers that they meet. -/
def listLeaves : List (Nat × TypeId) → Nat → TypeId → List (Nat × TypeId) →
    Option (List (Nat × TypeId) × List (Nat × TypeId)) :=
  walkReceiver types self.shapes self.declaredBindings
    (fun leaves class_ receiver => some (leaves ++ [(class_, receiver)])) self.shapes.length

def witnessLeaves (shape : Nat) (receiver : TypeId) : Option (List (Nat × TypeId)) :=
  (self.listLeaves types [] shape receiver []).map Prod.fst

def parameterLeaves (pattern : TypeId) (peer : KnownShapeBindingRange) (concrete : TypeId) :
    Option (List (Nat × TypeId)) :=
  match declaredProjection types pattern concrete with
  | none => some []
  | some matched =>
      witnessEdges self.declaredBindings (self.listLeaves types) matched peer.indices [] []

end NumericConstructionState

/-- What a walk over one key does: it joins two classes, notes the receivers of
some leaves, or goes on with other keys. -/
inductive JoinStep where
  | classes (left right : Nat)
  | leaves (leaves : List (Nat × TypeId)) (span : Option SourceSpan) (authoredOrder : Nat)
  | parts (keys : List ShapePairKey)

section Steps

variable (types : TypeStore) (self : NumericConstructionState)

def bindingsStep (left right : KnownShapeBindingRange) : Option JoinStep :=
  (matchedEdges self.declaredBindings left.indices right.indices).map fun edges =>
    .parts (edges.map fun edge => .pair edge.1 edge.2)

/-- The leaves of `other` meet the type of a concrete node. -/
def witnessStep (concrete other : Nat) (receiver : TypeId) (span : Option SourceSpan) :
    Option JoinStep := do
  let order ← self.shapeAuthoredOrder[concrete]?
  let leaves ← self.witnessLeaves types other receiver
  return .leaves leaves span order

def nodesStep (left right : Nat) : KnownShape → KnownShape → Option JoinStep
  | .Numeric leftClass, .Numeric rightClass => some (.classes leftClass rightClass)
  | .Collection leftElement _, .Collection rightElement _ =>
      some (.parts [.pair leftElement rightElement])
  | .Map leftKey leftValue, .Map rightKey rightValue =>
      some (.parts [.pair leftKey rightKey, .pair leftValue rightValue])
  | .Optional leftInner, .Optional rightInner => some (.parts [.pair leftInner rightInner])
  | .DeclaredSubstitution leftDeclared leftStart leftEnd,
      .DeclaredSubstitution rightDeclared rightStart rightEnd =>
      if leftDeclared = rightDeclared then
        bindingsStep self ⟨leftStart, leftEnd⟩ ⟨rightStart, rightEnd⟩
      else
        some (.parts [
          .projection leftDeclared ⟨leftStart, leftEnd⟩ rightDeclared ⟨rightStart, rightEnd⟩,
          .projection rightDeclared ⟨rightStart, rightEnd⟩ leftDeclared ⟨leftStart, leftEnd⟩])
  | .Concrete typeId span, _ => witnessStep types self left right typeId span
  | _, .Concrete typeId span => witnessStep types self right left typeId span
  | _, _ => some (.parts [])

def pairStep (left right : Nat) : Option JoinStep :=
  match self.shapes[left]?, self.shapes[right]? with
  | some leftNode, some rightNode => nodesStep types self left right leftNode rightNode
  | _, _ => none

def patternNodeStep (pattern : TypeId) (peer : KnownShapeBindingRange) (shape : Nat) :
    KnownShape → Option JoinStep
  | .Concrete typeId span => do
      let order ← self.shapeAuthoredOrder[shape]?
      let leaves ← self.parameterLeaves types pattern peer typeId
      return .leaves leaves span order
  | .Numeric _ => some (.parts [])
  | .Collection element fixedCapacity =>
      match types.collectionShape pattern with
      | none => some (.parts [])
      | some collection =>
          if collection.fixedCapacity = fixedCapacity then
            some (.parts [.pattern collection.elementType peer element])
          else some (.parts [])
  | .Map key value =>
      match types.mapShape pattern with
      | none => some (.parts [])
      | some map => some (.parts [.pattern map.keyType peer key, .pattern map.valueType peer value])
  | .Optional inner =>
      match types.optionInnerType pattern with
      | none => some (.parts [])
      | some innerPattern => some (.parts [.pattern innerPattern peer inner])
  | .DeclaredSubstitution declaredTypeId start end_ =>
      some (.parts [.projection declaredTypeId ⟨start, end_⟩ pattern peer])

def patternStep (pattern : TypeId) (peer : KnownShapeBindingRange) (shape : Nat) :
    Option JoinStep :=
  match types.parameter pattern with
  | some parameter =>
      (self.declaredBindingShape peer parameter).map fun bound =>
        .parts (bound.toList.map fun peerShape => .pair shape peerShape)
  | none =>
      if types.containsGenericParameter pattern = false then
        witnessStep types self shape shape pattern none
      else
        match self.shapes[shape]? with
        | none => none
        | some node => patternNodeStep types self pattern peer shape node

def projectionStep (fromDeclared : TypeId) (from_ : KnownShapeBindingRange)
    (toDeclared : TypeId) (to_ : KnownShapeBindingRange) : Option JoinStep :=
  if fromDeclared = toDeclared then bindingsStep self from_ to_
  else
    match declaredProjection types fromDeclared toDeclared with
    | none => some (.parts [])
    | some projected =>
        (projectedEdges self.declaredBindings projected to_ from_.indices).map .parts

def joinStep : ShapePairKey → Option JoinStep
  | .pair left right => pairStep types self left right
  | .pattern pattern peer shape => patternStep types self pattern peer shape
  | .projection fromDeclared from_ toDeclared to_ =>
      projectionStep types self fromDeclared from_ toDeclared to_

end Steps

/-! ## The depth of a walk -/

/-- A range of edges to shapes below `bound`. -/
structure RangeBelow (state : NumericConstructionState) (range : KnownShapeBindingRange)
    (bound : Nat) : Prop where
  ordered : range.start ≤ range.end_ ∧ range.end_ ≤ state.declaredBindings.length
  edges : ∀ index ∈ range.indices,
    ∃ edge, state.declaredBindings[index]? = some edge ∧ edge.shape < bound

/-- A key of the tables whose walk is less than `depth` levels deep. -/
def Within (state : NumericConstructionState) (depth : Nat) : ShapePairKey → Prop
  | .pair left right =>
      left < state.shapes.length ∧ right < state.shapes.length ∧ 2 * (left + right) + 1 < depth
  | .pattern _ peer shape =>
      shape < state.shapes.length ∧ ∃ bound ≤ state.shapes.length,
        RangeBelow state peer bound ∧ 2 * (shape + bound) + 1 < depth
  | .projection _ from_ _ to_ =>
      ∃ a ≤ state.shapes.length, ∃ b ≤ state.shapes.length,
        RangeBelow state from_ a ∧ RangeBelow state to_ b ∧ 2 * (a + b) < depth

section Depth

variable {types : TypeStore} {s : NumericConstructionState}

theorem Within.mono {key : ShapePairKey} {depth depth' : Nat} (h : Within s depth key)
    (hle : depth ≤ depth') : Within s depth' key := by
  cases key with
  | pair left right => exact ⟨h.1, h.2.1, by have := h.2.2; omega⟩
  | pattern pattern peer shape =>
      obtain ⟨hshape, bound, hbound, hpeer, hdepth⟩ := h
      exact ⟨hshape, bound, hbound, hpeer, by omega⟩
  | projection fromDeclared from_ toDeclared to_ =>
      obtain ⟨a, ha, b, hb, hfrom, hto, hdepth⟩ := h
      exact ⟨a, ha, b, hb, hfrom, hto, by omega⟩

theorem not_within_zero (key : ShapePairKey) : ¬Within s 0 key := by
  intro h
  cases key with
  | pair left right => exact absurd h.2.2 (Nat.not_lt_zero _)
  | pattern pattern peer shape =>
      obtain ⟨_, _, _, _, hdepth⟩ := h
      exact absurd hdepth (Nat.not_lt_zero _)
  | projection fromDeclared from_ toDeclared to_ =>
      obtain ⟨_, _, _, _, _, _, hdepth⟩ := h
      exact absurd hdepth (Nat.not_lt_zero _)

/-- A step that is made, to keys of less depth. -/
def Splits (s : NumericConstructionState) (depth : Nat) (step : Option JoinStep) : Prop :=
  ∃ made, step = some made ∧ (∀ left right, made = .classes left right →
      left < s.classes.length ∧ right < s.classes.length) ∧
    ∀ keys, made = .parts keys → ∀ key ∈ keys, Within s depth key

theorem Splits.of_parts {depth : Nat} {keys : List ShapePairKey}
    (h : ∀ key ∈ keys, Within s depth key) : Splits s depth (some (.parts keys)) := by
  refine ⟨_, rfl, fun left right hmade => ?_, fun other hmade => ?_⟩
  · cases hmade
  · cases hmade
    exact h

theorem Splits.of_leaves {depth : Nat} {leaves : List (Nat × TypeId)} {span : Option SourceSpan}
    {order : Nat} : Splits s depth (some (.leaves leaves span order)) := by
  refine ⟨_, rfl, fun left right hmade => ?_, fun other hmade => ?_⟩
  · cases hmade
  · cases hmade

theorem ShapeTables.range (h : ShapeTables s) {id start end_ : Nat} {declared : TypeId}
    (hnode : s.shapes[id]? = some (.DeclaredSubstitution declared start end_)) :
    RangeBelow s ⟨start, end_⟩ id where
  ordered := h.ranges id declared start end_ hnode
  edges index hindex := by
    have hrange : start ≤ index ∧ index < start + (end_ - start) := List.mem_range'_1.mp hindex
    have hedges : ∀ index, start ≤ index → index < end_ →
        ∃ edge, s.declaredBindings[index]? = some edge ∧ edge.shape < id := h.nodes id _ hnode
    exact hedges index hrange.1 (by omega)

theorem ShapeTables.listLeaves (h : ShapeTables s) (types : TypeStore) :
    WalksTogether (fun _ _ => True) s.shapes.length (s.listLeaves types) (s.listLeaves types) :=
  walkReceiver_together (fun _ _ _ _ _ _ => ⟨_, _, rfl, rfl, trivial⟩) h.nodes s.shapes.length
    (le_refl _)

theorem ShapeTables.witnessLeaves (h : ShapeTables s) (types : TypeStore) {shape : Nat}
    (hshape : shape < s.shapes.length) (receiver : TypeId) :
    ∃ leaves, s.witnessLeaves types shape receiver = some leaves := by
  obtain ⟨leaves, leaves', visited, hwalk, _, _⟩ :=
    h.listLeaves types [] [] shape receiver [] hshape trivial
  refine ⟨leaves, ?_⟩
  rw [NumericConstructionState.witnessLeaves, hwalk]
  rfl

theorem RangeBelow.mono {range : KnownShapeBindingRange} {bound bound' : Nat}
    (h : RangeBelow s range bound) (hle : bound ≤ bound') : RangeBelow s range bound' where
  ordered := h.ordered
  edges index hindex := by
    obtain ⟨edge, hedge, hshape⟩ := h.edges index hindex
    exact ⟨edge, hedge, by omega⟩

theorem ShapeTables.parameterLeaves (h : ShapeTables s) (types : TypeStore) (pattern : TypeId)
    {peer : KnownShapeBindingRange} (hpeer : RangeBelow s peer s.shapes.length)
    (concrete : TypeId) :
    ∃ leaves, s.parameterLeaves types pattern peer concrete = some leaves := by
  rw [NumericConstructionState.parameterLeaves]
  cases declaredProjection types pattern concrete with
  | none => exact ⟨[], rfl⟩
  | some matched =>
      obtain ⟨leaves, leaves', hleaves, _, _⟩ := witnessEdges_together (h.listLeaves types)
        matched peer.indices hpeer.edges (a := []) (b := []) [] trivial
      exact ⟨leaves, hleaves⟩

theorem ShapeTables.order (h : ShapeTables s) {shape : Nat} (hshape : shape < s.shapes.length) :
    ∃ order, s.shapeAuthoredOrder[shape]? = some order := by
  have horders := h.orders
  exact ⟨_, List.getElem?_eq_getElem (by omega)⟩

theorem ShapeTables.witnessStep_splits (h : ShapeTables s) {depth concrete other : Nat}
    (hconcrete : concrete < s.shapes.length) (hother : other < s.shapes.length)
    (receiver : TypeId) (span : Option SourceSpan) :
    Splits s depth (witnessStep types s concrete other receiver span) := by
  obtain ⟨order, horder⟩ := h.order hconcrete
  obtain ⟨leaves, hleaves⟩ := h.witnessLeaves types hother receiver
  rw [witnessStep, horder, Option.bind_eq_bind, Option.bind_some, hleaves]
  exact Splits.of_leaves

theorem matchedEdges_below {left right : List Nat} {a b : Nat}
    (hleft : ∀ index ∈ left, ∃ edge, s.declaredBindings[index]? = some edge ∧ edge.shape < a)
    (hright : ∀ index ∈ right, ∃ edge, s.declaredBindings[index]? = some edge ∧ edge.shape < b) :
    ∃ edges, matchedEdges s.declaredBindings left right = some edges ∧
      ∀ edge ∈ edges, edge.1 < a ∧ edge.2 < b := by
  fun_induction matchedEdges s.declaredBindings left right with
  | case1 leftIndex leftRest rightIndex rightRest edge peer hpeer hedge hlt ih =>
      exact ih (fun index hindex => hleft index (List.mem_cons_of_mem _ hindex)) hright
  | case2 leftIndex leftRest rightIndex rightRest edge peer hpeer hedge hle hlt ih =>
      exact ih hleft fun index hindex => hright index (List.mem_cons_of_mem _ hindex)
  | case3 leftIndex leftRest rightIndex rightRest edge peer hpeer hedge hle hge ih =>
      obtain ⟨edges, hedges, hbelow⟩ := ih
        (fun index hindex => hleft index (List.mem_cons_of_mem _ hindex))
        (fun index hindex => hright index (List.mem_cons_of_mem _ hindex))
      obtain ⟨edge', hedge', hshape⟩ := hleft leftIndex List.mem_cons_self
      obtain ⟨peer', hpeer', hshape'⟩ := hright rightIndex List.mem_cons_self
      rw [hedge] at hedge'
      rw [hpeer] at hpeer'
      cases hedge'
      cases hpeer'
      refine ⟨(edge.shape, peer.shape) :: edges, by rw [hedges]; rfl, ?_⟩
      intro pair hpair
      rcases List.mem_cons.mp hpair with hpair | hpair
      · rw [hpair]
        exact ⟨hshape, hshape'⟩
      · exact hbelow pair hpair
  | case4 leftIndex leftRest rightIndex rightRest hnone =>
      obtain ⟨edge, hedge, _⟩ := hleft leftIndex List.mem_cons_self
      obtain ⟨peer, hpeer, _⟩ := hright rightIndex List.mem_cons_self
      exact absurd hpeer (hnone edge peer hedge)
  | case5 left right hnil => exact ⟨[], rfl, fun _ hedge => absurd hedge List.not_mem_nil⟩

theorem bindingsStep_splits {depth : Nat} {left right : KnownShapeBindingRange} {a b : Nat}
    (hleft : RangeBelow s left a) (hright : RangeBelow s right b) (ha : a ≤ s.shapes.length)
    (hb : b ≤ s.shapes.length) (hdepth : 2 * (a + b) ≤ depth) :
    Splits s depth (bindingsStep s left right) := by
  obtain ⟨edges, hedges, hbelow⟩ := matchedEdges_below hleft.edges hright.edges
  rw [bindingsStep, hedges]
  refine Splits.of_parts fun key hkey => ?_
  obtain ⟨edge, hedge, hkey⟩ := List.mem_map.mp hkey
  have hedge' := hbelow edge hedge
  rw [← hkey]
  exact ⟨by omega, by omega, by omega⟩

theorem projectedEdges_below (projected : GenericTypeBindings) {to_ : KnownShapeBindingRange}
    {indices : List Nat} {a b depth : Nat}
    (hindices : ∀ index ∈ indices, ∃ edge, s.declaredBindings[index]? = some edge ∧ edge.shape < a)
    (hto : RangeBelow s to_ b) (ha : a ≤ s.shapes.length) (hb : b ≤ s.shapes.length)
    (hdepth : 2 * (a + b) ≤ depth) :
    ∃ keys, projectedEdges s.declaredBindings projected to_ indices = some keys ∧
      ∀ key ∈ keys, Within s depth key := by
  induction indices with
  | nil => exact ⟨[], rfl, fun _ hkey => absurd hkey List.not_mem_nil⟩
  | cons index rest ih =>
      obtain ⟨edge, hedge, hshape⟩ := hindices index List.mem_cons_self
      obtain ⟨keys, hkeys, hwithin⟩ :=
        ih fun index hindex => hindices index (List.mem_cons_of_mem _ hindex)
      rw [projectedEdges, hedge, hkeys]
      cases hparameter : projected.get edge.parameter with
      | none =>
          refine ⟨keys, ?_, hwithin⟩
          simp only [Option.map_some, hparameter]
      | some projection =>
          refine ⟨.pattern projection to_ edge.shape :: keys, ?_, ?_⟩
          · simp only [Option.map_some, hparameter]
          · intro key hkey
            rcases List.mem_cons.mp hkey with hkey | hkey
            · rw [hkey]
              exact ⟨by omega, b, hb, hto, by omega⟩
            · exact hwithin key hkey

theorem RangeBelow.declaredBindingShape {range : KnownShapeBindingRange} {bound : Nat}
    (h : RangeBelow s range bound) (parameter : GenericParameterId) :
    ∃ found, s.declaredBindingShape range parameter = some found ∧
      ∀ shape, found = some shape → shape < bound := by
  rw [NumericConstructionState.declaredBindingShape, if_pos h.ordered]
  refine ⟨_, rfl, fun shape hshape => ?_⟩
  obtain ⟨edge, hedge, hshape⟩ := Option.map_eq_some_iff.mp hshape
  obtain ⟨i, hi⟩ := List.mem_iff_getElem?.mp (binarySearchIn_sound hedge).1
  rw [List.getElem?_drop, List.getElem?_take] at hi
  split at hi
  · next hlt =>
      obtain ⟨edge', hedge', hbelow⟩ := h.edges (range.start + i) (by
        rw [KnownShapeBindingRange.indices, List.mem_range'_1]
        omega)
      rw [hi] at hedge'
      cases hedge'
      omega
  · cases hi

theorem Splits.nothing {depth : Nat} : Splits s depth (some (.parts [])) :=
  Splits.of_parts fun _ hkey => absurd hkey List.not_mem_nil

theorem Splits.one {depth : Nat} {key : ShapePairKey} (h : Within s depth key) :
    Splits s depth (some (.parts [key])) :=
  Splits.of_parts fun other hother => by
    rw [List.mem_singleton.mp hother]
    exact h

theorem Splits.both {depth : Nat} {first second : ShapePairKey} (h : Within s depth first)
    (h' : Within s depth second) : Splits s depth (some (.parts [first, second])) :=
  Splits.of_parts fun other hother => by
    rcases List.mem_cons.mp hother with hother | hother
    · rw [hother]
      exact h
    · rw [List.mem_singleton.mp hother]
      exact h'

theorem ShapeTables.pairStep_splits (h : ShapeTables s) (types : TypeStore) {left right depth : Nat}
    (hkey : Within s (depth + 1) (.pair left right)) :
    Splits s depth (pairStep types s left right) := by
  obtain ⟨hleft, hright, hdepth⟩ := hkey
  have hleftNode : s.shapes[left]? = some s.shapes[left] := List.getElem?_eq_getElem hleft
  have hrightNode : s.shapes[right]? = some s.shapes[right] := List.getElem?_eq_getElem hright
  generalize s.shapes[left] = leftNode at hleftNode
  generalize s.shapes[right] = rightNode at hrightNode
  have hinside := h.nodes left leftNode hleftNode
  have hinside' := h.nodes right rightNode hrightNode
  rw [pairStep, hleftNode, hrightNode]
  simp only []
  cases leftNode with
  | Concrete typeId span =>
      cases rightNode with
      | _ => exact h.witnessStep_splits hleft hright typeId span
  | Numeric leftClass =>
      cases rightNode with
      | Concrete typeId span => exact h.witnessStep_splits hright hleft typeId span
      | Numeric rightClass =>
          refine ⟨_, rfl, fun l r hmade => ?_, fun keys hmade => ?_⟩
          · cases hmade
            exact ⟨hinside, hinside'⟩
          · cases hmade
      | _ => exact Splits.nothing
  | Collection element fixedCapacity =>
      cases rightNode with
      | Concrete typeId span => exact h.witnessStep_splits hright hleft typeId span
      | Collection element' fixedCapacity' =>
          have hbelow : element < left := hinside
          have hbelow' : element' < right := hinside'
          exact Splits.one ⟨by omega, by omega, by omega⟩
      | _ => exact Splits.nothing
  | Map key value =>
      cases rightNode with
      | Concrete typeId span => exact h.witnessStep_splits hright hleft typeId span
      | Map key' value' =>
          have hbelow : key < left ∧ value < left := hinside
          have hbelow' : key' < right ∧ value' < right := hinside'
          exact Splits.both ⟨by omega, by omega, by omega⟩ ⟨by omega, by omega, by omega⟩
      | _ => exact Splits.nothing
  | Optional inner =>
      cases rightNode with
      | Concrete typeId span => exact h.witnessStep_splits hright hleft typeId span
      | Optional inner' =>
          have hbelow : inner < left := hinside
          have hbelow' : inner' < right := hinside'
          exact Splits.one ⟨by omega, by omega, by omega⟩
      | _ => exact Splits.nothing
  | DeclaredSubstitution declared start end_ =>
      cases rightNode with
      | Concrete typeId span => exact h.witnessStep_splits hright hleft typeId span
      | DeclaredSubstitution declared' start' end_' =>
          have hrange := h.range hleftNode
          have hrange' := h.range hrightNode
          rw [nodesStep]
          split
          · exact bindingsStep_splits hrange hrange' (by omega) (by omega) (by omega)
          · exact Splits.both
              ⟨left, by omega, right, by omega, hrange, hrange', by omega⟩
              ⟨right, by omega, left, by omega, hrange', hrange, by omega⟩
      | _ => exact Splits.nothing

theorem ShapeTables.patternStep_splits (h : ShapeTables s) (types : TypeStore) {pattern : TypeId}
    {peer : KnownShapeBindingRange} {shape depth : Nat}
    (hkey : Within s (depth + 1) (.pattern pattern peer shape)) :
    Splits s depth (patternStep types s pattern peer shape) := by
  obtain ⟨hshape, bound, hbound, hpeer, hdepth⟩ := hkey
  have hnode : s.shapes[shape]? = some s.shapes[shape] := List.getElem?_eq_getElem hshape
  generalize s.shapes[shape] = node at hnode
  have hinside := h.nodes shape node hnode
  -- A part of the pattern beside a part of the shape.
  have hpart : ∀ (part : TypeId) (child : Nat), child < shape →
      Within s depth (.pattern part peer child) :=
    fun part child hchild => ⟨by omega, bound, hbound, hpeer, by omega⟩
  rw [patternStep]
  cases hparameter : types.parameter pattern with
  | some parameter =>
      obtain ⟨found, hfound, hbelow⟩ := hpeer.declaredBindingShape parameter
      simp only []
      rw [hfound]
      refine Splits.of_parts fun key hmem => ?_
      obtain ⟨peerShape, hpeerShape, hkey⟩ := List.mem_map.mp hmem
      have hpeerBelow := hbelow peerShape (Option.mem_toList.mp hpeerShape)
      rw [← hkey]
      exact ⟨hshape, by omega, by omega⟩
  | none =>
      simp only []
      by_cases hconcrete : types.containsGenericParameter pattern = false
      · rw [if_pos hconcrete]
        exact h.witnessStep_splits hshape hshape pattern none
      · rw [if_neg hconcrete, hnode]
        simp only []
        cases node with
        | Concrete typeId span =>
            obtain ⟨order, horder⟩ := h.order hshape
            obtain ⟨leaves, hleaves⟩ := h.parameterLeaves types pattern (hpeer.mono hbound) typeId
            rw [patternNodeStep, horder, Option.bind_eq_bind, Option.bind_some, hleaves]
            exact Splits.of_leaves
        | Numeric class_ => exact Splits.nothing
        | Collection element fixedCapacity =>
            rw [patternNodeStep]
            cases types.collectionShape pattern with
            | none => exact Splits.nothing
            | some collection =>
                simp only []
                split
                · exact Splits.one (hpart _ element hinside)
                · exact Splits.nothing
        | Map key value =>
            rw [patternNodeStep]
            cases types.mapShape pattern with
            | none => exact Splits.nothing
            | some map => exact Splits.both (hpart _ key hinside.1) (hpart _ value hinside.2)
        | Optional inner =>
            rw [patternNodeStep]
            cases types.optionInnerType pattern with
            | none => exact Splits.nothing
            | some innerPattern => exact Splits.one (hpart _ inner hinside)
        | DeclaredSubstitution declared start end_ =>
            exact Splits.one
              ⟨shape, by omega, bound, hbound, h.range hnode, hpeer, by omega⟩

theorem ShapeTables.joinStep_splits (h : ShapeTables s) (types : TypeStore) {key : ShapePairKey}
    {depth : Nat} (hkey : Within s (depth + 1) key) :
    Splits s depth (joinStep types s key) := by
  cases key with
  | pair left right => exact h.pairStep_splits types hkey
  | pattern pattern peer shape => exact h.patternStep_splits types hkey
  | projection fromDeclared from_ toDeclared to_ =>
      obtain ⟨a, ha, b, hb, hfrom, hto, hdepth⟩ := hkey
      rw [joinStep, projectionStep]
      split
      · exact bindingsStep_splits hfrom hto ha hb (by omega)
      · cases declaredProjection types fromDeclared toDeclared with
        | none => exact Splits.nothing
        | some projected =>
            obtain ⟨keys, hkeys, hwithin⟩ :=
              projectedEdges_below projected hfrom.edges hto ha hb
                (show 2 * (a + b) ≤ depth by omega)
            simp only []
            rw [hkeys]
            exact Splits.of_parts hwithin

end Depth

/-! ## The actions of a walk -/

def stepActions (environment : TypeEnvironment) (parts : ShapePairKey → List ClassAction) :
    Option JoinStep → List ClassAction
  | none => []
  | some (.classes left right) => [.join left right]
  | some (.leaves leaves span authoredOrder) =>
      leaves.flatMap (witnessActions environment span authoredOrder)
  | some (.parts keys) => keys.flatMap parts

def actionsWithin (types : TypeStore) (s : NumericConstructionState) :
    Nat → ShapePairKey → List ClassAction
  | 0, _ => []
  | depth + 1, key =>
      stepActions types.numericTypes (actionsWithin types s depth) (joinStep types s key)

def actionsOf (types : TypeStore) (s : NumericConstructionState) (key : ShapePairKey) :
    List ClassAction :=
  actionsWithin types s s.walkFuel key

/-- Two numeric leaves that the walk over a key pairs. -/
inductive PairedLeaves (types : TypeStore) (s : NumericConstructionState) :
    ShapePairKey → Nat → Nat → Prop
  | classes {key : ShapePairKey} {left right : Nat}
      (h : joinStep types s key = some (.classes left right)) : PairedLeaves types s key left right
  | part {key part : ShapePairKey} {keys : List ShapePairKey} {left right : Nat}
      (h : joinStep types s key = some (.parts keys)) (hpart : part ∈ keys)
      (hleaves : PairedLeaves types s part left right) : PairedLeaves types s key left right

section Actions

variable {types : TypeStore} {s : NumericConstructionState}

theorem actionsWithin_stable (h : ShapeTables s) {depth depth' : Nat} {key : ShapePairKey}
    (hkey : Within s depth key) (hle : depth ≤ depth') :
    actionsWithin types s depth' key = actionsWithin types s depth key := by
  induction depth generalizing depth' key with
  | zero => exact absurd hkey (not_within_zero key)
  | succ depth ih =>
      obtain ⟨more, rfl⟩ := Nat.exists_eq_add_of_le hle
      obtain ⟨made, hmade, _, hparts⟩ := h.joinStep_splits types hkey
      rw [show depth + 1 + more = (depth + more) + 1 by omega, actionsWithin, actionsWithin, hmade]
      cases made with
      | classes left right => rfl
      | leaves leaves span order => rfl
      | parts keys =>
          exact List.flatMap_congr fun part hpart =>
            ih (hparts keys rfl part hpart) (Nat.le_add_right depth more)

theorem actionsOf_eq (h : ShapeTables s) {key : ShapePairKey} (hkey : Within s s.walkFuel key) :
    actionsOf types s key
      = stepActions types.numericTypes (actionsOf types s) (joinStep types s key) := by
  have hfuel : s.walkFuel = (4 * s.shapes.length + 1) + 1 := rfl
  have hwithin : ∀ part, Within s (4 * s.shapes.length + 1) part →
      actionsWithin types s (4 * s.shapes.length + 1) part = actionsOf types s part := by
    intro part hpart
    exact (actionsWithin_stable h hpart (by rw [hfuel]; omega)).symm
  rw [hfuel] at hkey
  obtain ⟨made, hmade, _, hparts⟩ := h.joinStep_splits types hkey
  rw [actionsOf, hfuel, actionsWithin, hmade]
  cases made with
  | classes left right => rfl
  | leaves leaves span order => rfl
  | parts keys =>
      exact List.flatMap_congr fun part hpart => hwithin part (hparts keys rfl part hpart)

theorem join_notMem_witnessActions {environment : TypeEnvironment} {span : Option SourceSpan}
    {order left right : Nat} {leaf : Nat × TypeId} :
    .join left right ∉ witnessActions environment span order leaf := by
  rw [witnessActions]
  cases numericWitnessType leaf.2 environment with
  | none => exact List.not_mem_nil
  | some typeId =>
      intro hmem
      cases List.mem_singleton.mp hmem

theorem join_mem_actionsOf (h : ShapeTables s) {depth left right : Nat} {key : ShapePairKey}
    (hkey : Within s depth key) (hdepth : depth ≤ s.walkFuel) :
    .join left right ∈ actionsOf types s key ↔ PairedLeaves types s key left right := by
  induction depth generalizing key with
  | zero => exact absurd hkey (not_within_zero key)
  | succ depth ih =>
      rw [actionsOf_eq h (hkey.mono hdepth)]
      obtain ⟨made, hmade, _, hparts⟩ := h.joinStep_splits types hkey
      rw [hmade]
      constructor
      · intro hmem
        cases made with
        | classes l r =>
            cases List.mem_singleton.mp hmem
            exact .classes hmade
        | leaves leaves span order =>
            obtain ⟨leaf, _, hleaf⟩ := List.mem_flatMap.mp hmem
            exact absurd hleaf join_notMem_witnessActions
        | parts keys =>
            obtain ⟨part, hpart, hleaf⟩ := List.mem_flatMap.mp hmem
            exact .part hmade hpart ((ih (hparts keys rfl part hpart) (by omega)).mp hleaf)
      · intro hleaves
        cases hleaves with
        | classes hstep =>
            cases hmade.symm.trans hstep
            exact List.mem_singleton.mpr rfl
        | part hstep hpart hleaves =>
            cases hmade.symm.trans hstep
            exact List.mem_flatMap.mpr
              ⟨_, hpart, (ih (hparts _ rfl _ hpart) (by omega)).mpr hleaves⟩

end Actions

end Moth.Ast.NumericConstruction
