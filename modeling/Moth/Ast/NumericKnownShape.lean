import Moth.Ast.NumericReports
import Moth.Datatypes.GenericBindings
import Moth.Lib.BinarySearch

/-!
# Known shapes

`ast/numeric_known_shape.rs`: a receiver walked beside a shape, two shapes
joined into one structure, and the check that refuses a join before it. Both
walks pair the same nodes, with a memo of one operation that a class merge
empties.

The mutual recursion of the source goes through `recurse` here, which is given
the key of a pair, of a pattern beside a shape, or of a projection, and each
function is its body over it. The three maps of a memo are association lists.
Fuel stands for the depth of the recursion: the tables of a body are acyclic,
and the fuel of an entry point covers them.
-/

namespace Moth.Datatypes

open Moth.Lexical

structure CollectionShape where
  elementType : TypeId
  fixedCapacity : Option Nat

structure MapShape where
  keyType : TypeId
  valueType : TypeId

namespace TypeStore

variable (self : TypeStore)

def collectionShape (id : TypeId) : Option CollectionShape :=
  match self.get id with
  | some (.Constructed constructed) =>
      match constructed.constructor with
      | .Builtin (.Collection fixedCapacity) =>
          constructed.arguments.head?.map fun elementType => ⟨elementType, fixedCapacity⟩
      | _ => none
  | _ => none

def mapShape (id : TypeId) : Option MapShape :=
  match self.get id with
  | some (.Constructed constructed) =>
      match constructed.constructor, constructed.arguments with
      | .Builtin .OrderedMap, [keyType, valueType] => some ⟨keyType, valueType⟩
      | _, _ => none
  | _ => none

def builtinKey (id : TypeId) : Option BuiltinTypeKey :=
  match self.get id with
  | some (.Builtin key) => some key
  | _ => none

theorem builtinKey_fixedScalar (scalar : FixedScalar) :
    self.builtinKey (fixedScalarTypeId scalar) = some (.FixedScalar scalar) := by
  obtain ⟨rest, hrest⟩ := self.seeded
  rw [builtinKey, get, ← hrest]
  cases scalar <;> rfl

/-- What numeric code reads of the store. -/
def numericTypes : TypeEnvironment := ⟨self.builtinKey, self.builtinKey_fixedScalar⟩

end TypeStore

end Moth.Datatypes

namespace Moth.Ast.NumericConstruction

open Moth.Lib Moth.Datatypes Moth.Source

structure KnownShapeBindingRange where
  start : Nat
  end_ : Nat
deriving DecidableEq

def KnownShapeBindingRange.indices (range : KnownShapeBindingRange) : List Nat :=
  List.range' range.start (range.end_ - range.start)

/-- The shape bound to a parameter within a range, which is in parameter order. -/
def NumericConstructionState.declaredBindingShape (self : NumericConstructionState)
    (range : KnownShapeBindingRange) (parameter : GenericParameterId) : Option (Option Nat) :=
  if range.start ≤ range.end_ ∧ range.end_ ≤ self.declaredBindings.length then
    let edges := (self.declaredBindings.take range.end_).drop range.start
    let found := binarySearchByKey (fun edge => edge.parameter.index) edges parameter.index
    some (found.map (·.shape))
  else none

def declaredProjection (types : TypeStore) (fromDeclared toDeclared : TypeId) :
    Option GenericTypeBindings :=
  match types.tryCollectTypeParameterBindingsTypeid fromDeclared toDeclared .new with
  | (.ok true, projected) => some projected
  | _ => none

def numericWitnessType (typeId : TypeId) (environment : TypeEnvironment) : Option TypeId :=
  if (environment.fixedScalar typeId).isSome ∨ (environment.numberScale typeId).isSome then
    some typeId
  else none

/-! ## A receiver beside a shape -/

section Receiver

variable (types : TypeStore) (shapes : List KnownShape) (bindings : List KnownShapeBinding)

/-- The receiver of a present value, whose optional layer is peeled. -/
def peeledReceiver (receiver : TypeId) : TypeId :=
  (types.optionInnerType receiver).getD receiver

/-- The loop over the edges of a declared substitution. The node is visited when
the first edge is followed, and left where it was visited before. -/
def walkEdges {σ : Type}
    (walk : σ → Nat → TypeId → List (Nat × TypeId) → Option (σ × List (Nat × TypeId)))
    (projected : GenericTypeBindings) (visitKey : Nat × TypeId) :
    List Nat → Bool → σ → List (Nat × TypeId) → Option (σ × List (Nat × TypeId))
  | [], _, acc, visited => some (acc, visited)
  | index :: rest, descending, acc, visited =>
      match bindings[index]? with
      | none => none
      | some edge =>
          match projected.get edge.parameter with
          | none => walkEdges walk projected visitKey rest descending acc visited
          | some parameterType =>
              if descending = false ∧ visitKey ∈ visited then some (acc, visited)
              else
                let visited := if descending then visited else visitKey :: visited
                match walk acc edge.shape parameterType visited with
                | none => none
                | some (acc, visited) => walkEdges walk projected visitKey rest true acc visited

/-- The walk at one node, that of its children given. `note` takes the numeric
leaves. -/
def walkReceiverAt {σ : Type} (note : σ → Nat → TypeId → Option σ)
    (walk : σ → Nat → TypeId → List (Nat × TypeId) → Option (σ × List (Nat × TypeId)))
    (acc : σ) (shape : Nat) (receiver : TypeId) (visited : List (Nat × TypeId)) :
    KnownShape → Option (σ × List (Nat × TypeId))
  | .Concrete _ _ => some (acc, visited)
  | .Numeric class_ =>
      -- A scalar receiving site keeps no marks.
      if visited ≠ [] ∧ (shape, receiver) ∈ visited then some (acc, visited)
      else
        let visited := if visited = [] then visited else (shape, receiver) :: visited
        (note acc class_ (peeledReceiver types receiver)).map fun acc => (acc, visited)
  | .Collection element _ =>
      match types.collectionShape (peeledReceiver types receiver) with
      | none => some (acc, visited)
      | some collection =>
          if (shape, receiver) ∈ visited then some (acc, visited)
          else walk acc element collection.elementType ((shape, receiver) :: visited)
  | .Map key value =>
      match types.mapShape (peeledReceiver types receiver) with
      | none => some (acc, visited)
      | some map =>
          if (shape, receiver) ∈ visited then some (acc, visited)
          else
            match walk acc key map.keyType ((shape, receiver) :: visited) with
            | none => none
            | some (acc, visited) => walk acc value map.valueType visited
  | .Optional inner =>
      if (shape, receiver) ∈ visited then some (acc, visited)
      else walk acc inner (peeledReceiver types receiver) ((shape, receiver) :: visited)
  | .DeclaredSubstitution declaredTypeId start end_ =>
      match declaredProjection types declaredTypeId (peeledReceiver types receiver) with
      | none => some (acc, visited)
      | some projected =>
          walkEdges bindings walk projected (shape, receiver)
            (KnownShapeBindingRange.indices ⟨start, end_⟩) false acc visited

def walkReceiver {σ : Type} (note : σ → Nat → TypeId → Option σ) :
    Nat → σ → Nat → TypeId → List (Nat × TypeId) → Option (σ × List (Nat × TypeId))
  | 0, _, _, _, _ => none
  | fuel + 1, acc, shape, receiver, visited =>
      match shapes[shape]? with
      | none => none
      | some node =>
          walkReceiverAt types bindings note (walkReceiver note fuel) acc shape receiver visited
            node

/-- The loop over the edges that a concrete type binds, with the marks of all of them. -/
def witnessEdges {σ : Type}
    (walk : σ → Nat → TypeId → List (Nat × TypeId) → Option (σ × List (Nat × TypeId)))
    (matched : GenericTypeBindings) : List Nat → σ → List (Nat × TypeId) → Option σ
  | [], acc, _ => some acc
  | index :: rest, acc, visited =>
      match bindings[index]? with
      | none => none
      | some edge =>
          match matched.get edge.parameter with
          | none => witnessEdges walk matched rest acc visited
          | some bound =>
              match walk acc edge.shape bound visited with
              | none => none
              | some (acc, visited) => witnessEdges walk matched rest acc visited

end Receiver

namespace NumericConstructionState

variable (self : NumericConstructionState) (types : TypeStore)

/-- One numeric leaf beside its receiver: a witness, or a peer that the pin refuses. -/
def noteReceiver (span : Option SourceSpan) (authoredOrder : Nat) (class_ : Nat)
    (receiver : TypeId) : Option NumericConstructionState :=
  match numericWitnessType receiver types.numericTypes with
  | none => some self
  | some typeId => do
      let (pinned, self) ← self.classPinnedFamily class_
      if familyReceivesRecipe pinned receiver types.numericTypes then
        self.addOrderedReceiverWitness class_ typeId span authoredOrder types.numericTypes
      else self.refuseOrderedPinnedPeer class_ typeId span authoredOrder

def registerOrderedShapeWitnessInner (shape : Nat) (receiver : TypeId) (span : Option SourceSpan)
    (authoredOrder : Nat) (visited : List (Nat × TypeId)) :
    Option (NumericConstructionState × List (Nat × TypeId)) :=
  walkReceiver types self.shapes self.declaredBindings
    (fun self class_ receiver => self.noteReceiver types span authoredOrder class_ receiver)
    self.shapes.length self shape receiver visited

def registerOrderedShapeWitness (shape : Nat) (receiver : TypeId) (span : Option SourceSpan)
    (authoredOrder : Nat) : Option NumericConstructionState :=
  (self.registerOrderedShapeWitnessInner types shape receiver span authoredOrder []).map Prod.fst

def witnessPatternParameters (pattern : TypeId) (peer : KnownShapeBindingRange)
    (concrete : TypeId) (span : Option SourceSpan) (authoredOrder : Nat) :
    Option NumericConstructionState :=
  match declaredProjection types pattern concrete with
  | none => some self
  | some matched =>
      witnessEdges self.declaredBindings
        (walkReceiver types self.shapes self.declaredBindings
          (fun self class_ receiver => self.noteReceiver types span authoredOrder class_ receiver)
          self.shapes.length)
        matched peer.indices self []

/-- An integer-pinned origin refuses a merged decimal family on either side. -/
def numericClassesJoinRefused (left right : Nat) : Option (Bool × NumericConstructionState) := do
  let (pinned, self) ← self.classPinnedFamily left
  let (refused, self) ←
    if pinned = some .Whole then self.classFamilyIsDecimal right else some (false, self)
  if refused then return (true, self)
  let (pinned, self) ← self.classPinnedFamily right
  if pinned = some .Whole then self.classFamilyIsDecimal left else some (false, self)

end NumericConstructionState

/-! ## The memo of one operation -/

/-- What a walk is remembered by. -/
inductive ShapePairKey where
  | pair (left right : Nat)
  | pattern (pattern : TypeId) (peer : KnownShapeBindingRange) (shape : Nat)
  | projection (fromDeclared : TypeId) (from_ : KnownShapeBindingRange) (toDeclared : TypeId)
      (to_ : KnownShapeBindingRange)
deriving DecidableEq

structure ShapePairMemo where
  pairs : List ((Nat × Nat) × Bool)
  patterns : List ((TypeId × KnownShapeBindingRange × Nat) × Bool)
  projections :
    List ((TypeId × KnownShapeBindingRange × TypeId × KnownShapeBindingRange) × Bool)
  epoch : Nat
  descentStarted : Bool

namespace ShapePairMemo

def new : ShapePairMemo := ⟨[], [], [], 0, false⟩

variable (self : ShapePairMemo)

def get : ShapePairKey → Option Bool
  | .pair left right => self.pairs.lookup (left, right)
  | .pattern pattern peer shape => self.patterns.lookup (pattern, peer, shape)
  | .projection fromDeclared from_ toDeclared to_ =>
      self.projections.lookup (fromDeclared, from_, toDeclared, to_)

def insert (result : Bool) : ShapePairKey → ShapePairMemo
  | .pair left right => { self with pairs := ((left, right), result) :: self.pairs }
  | .pattern pattern peer shape =>
      { self with patterns := ((pattern, peer, shape), result) :: self.patterns }
  | .projection fromDeclared from_ toDeclared to_ =>
      { self with
        projections := ((fromDeclared, from_, toDeclared, to_), result) :: self.projections }

def invalidate : ShapePairMemo :=
  { self with epoch := self.epoch + 1, pairs := [], patterns := [], projections := [] }

def startDescent : ShapePairMemo :=
  { self with descentStarted := true }

end ShapePairMemo

/-- What a walk over a pair answers, beside the state and the memo it leaves. -/
abbrev PairAnswer := Option (Bool × NumericConstructionState × ShapePairMemo)

/-- A walk answered from the memo, or run and remembered where no merge came between. -/
def memoised (key : ShapePairKey)
    (walk : NumericConstructionState → ShapePairMemo → PairAnswer)
    (self : NumericConstructionState) (memo : ShapePairMemo) : PairAnswer :=
  match memo.get key with
  | some result => some (result, self, memo)
  | none =>
      match walk self memo with
      | none => none
      | some (result, self, after) =>
          if after.descentStarted = true ∧ after.epoch = memo.epoch then
            some (result, self, after.insert result key)
          else some (result, self, after)

/-- Whether two nodes are of one composite kind. -/
def bothComposite : KnownShape → KnownShape → Bool
  | .Collection _ _, .Collection _ _ => true
  | .Map _ _, .Map _ _ => true
  | .Optional _, .Optional _ => true
  | .DeclaredSubstitution _ _ _, .DeclaredSubstitution _ _ _ => true
  | _, _ => false

/-- Two ranges in parameter order walked together: the pairs of one parameter. -/
def matchedEdges (bindings : List KnownShapeBinding) :
    List Nat → List Nat → Option (List (Nat × Nat))
  | leftIndex :: leftRest, rightIndex :: rightRest =>
      match bindings[leftIndex]?, bindings[rightIndex]? with
      | some edge, some peer =>
          if edge.parameter.index < peer.parameter.index then
            matchedEdges bindings leftRest (rightIndex :: rightRest)
          else if peer.parameter.index < edge.parameter.index then
            matchedEdges bindings (leftIndex :: leftRest) rightRest
          else
            (matchedEdges bindings leftRest rightRest).map ((edge.shape, peer.shape) :: ·)
      | _, _ => none
  | _, _ => some []
termination_by left right => left.length + right.length

/-! ## Joining two shapes -/

section Union

variable (recurse : ShapePairKey → NumericConstructionState → ShapePairMemo → PairAnswer)
  (types : TypeStore)

/-- Walks each of some pairs, whatever the ones before answered. -/
def unionEach : List ShapePairKey → Bool → NumericConstructionState → ShapePairMemo → PairAnswer
  | [], joined, self, memo => some (joined, self, memo)
  | key :: rest, joined, self, memo => do
      let (result, self, memo) ← recurse key self memo.startDescent
      unionEach rest (joined && result) self memo

def unionDeclaredBindings (left right : KnownShapeBindingRange) (self : NumericConstructionState)
    (memo : ShapePairMemo) : PairAnswer :=
  match matchedEdges self.declaredBindings left.indices right.indices with
  | none => none
  | some edges => unionEach recurse (edges.map fun edge => .pair edge.1 edge.2) true self memo

def unionDeclaredEnvelopes (leftDeclared : TypeId) (left : KnownShapeBindingRange)
    (rightDeclared : TypeId) (right : KnownShapeBindingRange) (self : NumericConstructionState)
    (memo : ShapePairMemo) : PairAnswer := do
  let (joined, self, memo) ←
    recurse (.projection leftDeclared left rightDeclared right) self memo
  let (reverse, self, memo) ←
    recurse (.projection rightDeclared right leftDeclared left) self memo
  return (joined && reverse, self, memo)

def unionNumericClasses (left right : Nat) (self : NumericConstructionState)
    (memo : ShapePairMemo) : PairAnswer := do
  let (refused, self) ← self.numericClassesJoinRefused left right
  if refused then return (false, self, memo)
  let (shared, self) ← self.classesShareRoot left right
  if shared then return (true, self, memo)
  let (_, self) ← self.unionClasses left right
  return (true, self, memo.invalidate)

/-- A concrete leaf is a natural peer witness of the other side. -/
def witnessPeer (concrete other : Nat) (typeId : TypeId) (span : Option SourceSpan)
    (self : NumericConstructionState) (memo : ShapePairMemo) : PairAnswer := do
  let order ← self.shapeAuthoredOrder[concrete]?
  let self ← self.registerOrderedShapeWitness types other typeId span order
  return (true, self, memo)

/-- The join of two nodes that stand at `left` and `right`. -/
def unionNodes (left right : Nat) (self : NumericConstructionState) (memo : ShapePairMemo) :
    KnownShape → KnownShape → PairAnswer
  | .Numeric leftClass, .Numeric rightClass => unionNumericClasses leftClass rightClass self memo
  | .Collection leftElement _, .Collection rightElement _ =>
      unionEach recurse [.pair leftElement rightElement] true self memo
  | .Map leftKey leftValue, .Map rightKey rightValue =>
      unionEach recurse [.pair leftKey rightKey, .pair leftValue rightValue] true self memo
  | .Optional leftInner, .Optional rightInner =>
      unionEach recurse [.pair leftInner rightInner] true self memo
  | .DeclaredSubstitution leftDeclared leftStart leftEnd,
      .DeclaredSubstitution rightDeclared rightStart rightEnd =>
      if leftDeclared = rightDeclared then
        unionDeclaredBindings recurse ⟨leftStart, leftEnd⟩ ⟨rightStart, rightEnd⟩ self memo
      else
        unionDeclaredEnvelopes recurse leftDeclared ⟨leftStart, leftEnd⟩ rightDeclared
          ⟨rightStart, rightEnd⟩ self memo
  | .Concrete typeId span, _ => witnessPeer types left right typeId span self memo
  | _, .Concrete typeId span => witnessPeer types right left typeId span self memo
  | _, _ => some (true, self, memo)

def unionShapeClassesWalk (left right : Nat) (self : NumericConstructionState)
    (memo : ShapePairMemo) : PairAnswer :=
  match self.shapes[left]?, self.shapes[right]? with
  | some leftNode, some rightNode =>
      unionNodes recurse types left right self memo leftNode rightNode
  | _, _ => none

def unionShapeClassesInner (left right : Nat) (self : NumericConstructionState)
    (memo : ShapePairMemo) : PairAnswer :=
  match self.shapes[left]?, self.shapes[right]? with
  | some leftNode, some rightNode =>
      if bothComposite leftNode rightNode then
        memoised (.pair left right) (unionShapeClassesWalk recurse types left right) self memo
      else unionShapeClassesWalk recurse types left right self memo
  | _, _ => none

/-- The patterns that a projection puts beside the edges it maps. -/
def projectedEdges (bindings : List KnownShapeBinding) (projected : GenericTypeBindings)
    (to_ : KnownShapeBindingRange) : List Nat → Option (List ShapePairKey)
  | [] => some []
  | index :: rest =>
      match bindings[index]? with
      | none => none
      | some edge =>
          (projectedEdges bindings projected to_ rest).map fun keys =>
            match projected.get edge.parameter with
            | none => keys
            | some projection => .pattern projection to_ edge.shape :: keys

def unionProjectedEdgesWalk (fromDeclared : TypeId) (from_ : KnownShapeBindingRange)
    (toDeclared : TypeId) (to_ : KnownShapeBindingRange) (self : NumericConstructionState)
    (memo : ShapePairMemo) : PairAnswer :=
  if fromDeclared = toDeclared then unionDeclaredBindings recurse from_ to_ self memo
  else
    match declaredProjection types fromDeclared toDeclared with
    | none => some (true, self, memo)
    | some projected =>
        match projectedEdges self.declaredBindings projected to_ from_.indices with
        | none => none
        | some keys => unionEach recurse keys true self memo

def unionProjectedEdges (fromDeclared : TypeId) (from_ : KnownShapeBindingRange)
    (toDeclared : TypeId) (to_ : KnownShapeBindingRange) : NumericConstructionState →
    ShapePairMemo → PairAnswer :=
  memoised (.projection fromDeclared from_ toDeclared to_)
    (unionProjectedEdgesWalk recurse types fromDeclared from_ toDeclared to_)

/-- The join of an open pattern with the node that stands at `shape`. -/
def unionPatternNode (pattern : TypeId) (peer : KnownShapeBindingRange) (shape : Nat)
    (self : NumericConstructionState) (memo : ShapePairMemo) : KnownShape → PairAnswer
  | .Concrete typeId span => do
      let order ← self.shapeAuthoredOrder[shape]?
      let self ← self.witnessPatternParameters types pattern peer typeId span order
      return (true, self, memo)
  | .Numeric _ => some (true, self, memo)
  | .Collection element fixedCapacity =>
      match types.collectionShape pattern with
      | none => some (true, self, memo)
      | some collection =>
          if collection.fixedCapacity = fixedCapacity then
            unionEach recurse [.pattern collection.elementType peer element] true self memo
          else some (true, self, memo)
  | .Map key value =>
      match types.mapShape pattern with
      | none => some (true, self, memo)
      | some map =>
          unionEach recurse [.pattern map.keyType peer key, .pattern map.valueType peer value]
            true self memo
  | .Optional inner =>
      match types.optionInnerType pattern with
      | none => some (true, self, memo)
      | some innerPattern => unionEach recurse [.pattern innerPattern peer inner] true self memo
  | .DeclaredSubstitution declaredTypeId start end_ =>
      recurse (.projection declaredTypeId ⟨start, end_⟩ pattern peer) self memo

def unionPatternShapeWalk (pattern : TypeId) (peer : KnownShapeBindingRange) (shape : Nat)
    (self : NumericConstructionState) (memo : ShapePairMemo) : PairAnswer :=
  match types.parameter pattern with
  | some parameter =>
      match self.declaredBindingShape peer parameter with
      | none => none
      | some none => some (true, self, memo)
      | some (some peerShape) => recurse (.pair shape peerShape) self memo
  | none =>
      if types.containsGenericParameter pattern = false then
        witnessPeer types shape shape pattern none self memo
      else
        match self.shapes[shape]? with
        | none => none
        | some node => unionPatternNode recurse types pattern peer shape self memo node

def unionPatternShape (pattern : TypeId) (peer : KnownShapeBindingRange) (shape : Nat) :
    NumericConstructionState → ShapePairMemo → PairAnswer :=
  memoised (.pattern pattern peer shape) (unionPatternShapeWalk recurse types pattern peer shape)

end Union

/-- The mutual recursion of the join, one level for each unit of fuel. -/
def unionWalk (types : TypeStore) :
    Nat → ShapePairKey → NumericConstructionState → ShapePairMemo → PairAnswer
  | 0, _, _, _ => none
  | fuel + 1, .pair left right, self, memo =>
      unionShapeClassesInner (unionWalk types fuel) types left right self memo
  | fuel + 1, .pattern pattern peer shape, self, memo =>
      unionPatternShape (unionWalk types fuel) types pattern peer shape self memo
  | fuel + 1, .projection fromDeclared from_ toDeclared to_, self, memo =>
      unionProjectedEdges (unionWalk types fuel) types fromDeclared from_ toDeclared to_ self memo

/-- Fuel for the depth of any walk over two shapes. -/
def NumericConstructionState.walkFuel (self : NumericConstructionState) : Nat :=
  4 * self.shapes.length + 2

def unionShapeClasses (types : TypeStore) (left right : Nat) (self : NumericConstructionState) :
    Option (Bool × NumericConstructionState) :=
  (unionWalk types self.walkFuel (.pair left right) self .new).map fun answer =>
    (answer.1, answer.2.1)

/-! ## Refusing a join -/

section Refused

variable (recurse : ShapePairKey → NumericConstructionState → ShapePairMemo → PairAnswer)
  (types : TypeStore)

/-- Checks each of some pairs, whatever the ones before answered. -/
def refusedEach : List ShapePairKey → Bool → NumericConstructionState → ShapePairMemo → PairAnswer
  | [], refused, self, memo => some (refused, self, memo)
  | key :: rest, refused, self, memo => do
      let (result, self, memo) ← recurse key self memo.startDescent
      refusedEach rest (refused || result) self memo

/-- Checks the values of a map only where its keys are not refused. -/
def refusedEither (first second : ShapePairKey) (self : NumericConstructionState)
    (memo : ShapePairMemo) : PairAnswer := do
  let (result, self, memo) ← recurse first self memo.startDescent
  if result then return (true, self, memo)
  recurse second self memo

def declaredBindingsRefused (left right : KnownShapeBindingRange)
    (self : NumericConstructionState) (memo : ShapePairMemo) : PairAnswer :=
  match matchedEdges self.declaredBindings left.indices right.indices with
  | none => none
  | some edges => refusedEach recurse (edges.map fun edge => .pair edge.1 edge.2) false self memo

def declaredEnvelopesRefused (leftDeclared : TypeId) (left : KnownShapeBindingRange)
    (rightDeclared : TypeId) (right : KnownShapeBindingRange) (self : NumericConstructionState)
    (memo : ShapePairMemo) : PairAnswer := do
  let (refused, self, memo) ←
    recurse (.projection leftDeclared left rightDeclared right) self memo
  let (reverse, self, memo) ←
    recurse (.projection rightDeclared right leftDeclared left) self memo
  return (refused || reverse, self, memo)

/-- The check of two nodes. -/
def refusedNodes (self : NumericConstructionState) (memo : ShapePairMemo) :
    KnownShape → KnownShape → PairAnswer
  | .Numeric leftClass, .Numeric rightClass => do
      let (refused, self) ← self.numericClassesJoinRefused leftClass rightClass
      return (refused, self, memo)
  | .Collection leftElement _, .Collection rightElement _ =>
      refusedEach recurse [.pair leftElement rightElement] false self memo
  | .Map leftKey leftValue, .Map rightKey rightValue =>
      refusedEither recurse (.pair leftKey rightKey) (.pair leftValue rightValue) self memo
  | .Optional leftInner, .Optional rightInner =>
      refusedEach recurse [.pair leftInner rightInner] false self memo
  | .DeclaredSubstitution leftDeclared leftStart leftEnd,
      .DeclaredSubstitution rightDeclared rightStart rightEnd =>
      if leftDeclared = rightDeclared then
        declaredBindingsRefused recurse ⟨leftStart, leftEnd⟩ ⟨rightStart, rightEnd⟩ self memo
      else
        declaredEnvelopesRefused recurse leftDeclared ⟨leftStart, leftEnd⟩ rightDeclared
          ⟨rightStart, rightEnd⟩ self memo
  | _, _ => some (false, self, memo)

def shapesJoinRefusedWalk (left right : Nat) (self : NumericConstructionState)
    (memo : ShapePairMemo) : PairAnswer :=
  match self.shapes[left]?, self.shapes[right]? with
  | some leftNode, some rightNode => refusedNodes recurse self memo leftNode rightNode
  | _, _ => none

def shapesJoinRefusedInner (left right : Nat) (self : NumericConstructionState)
    (memo : ShapePairMemo) : PairAnswer :=
  match self.shapes[left]?, self.shapes[right]? with
  | some leftNode, some rightNode =>
      if bothComposite leftNode rightNode then
        memoised (.pair left right) (shapesJoinRefusedWalk recurse left right) self memo
      else shapesJoinRefusedWalk recurse left right self memo
  | _, _ => none

def projectedEdgesRefusedWalk (fromDeclared : TypeId) (from_ : KnownShapeBindingRange)
    (toDeclared : TypeId) (to_ : KnownShapeBindingRange) (self : NumericConstructionState)
    (memo : ShapePairMemo) : PairAnswer :=
  if fromDeclared = toDeclared then declaredBindingsRefused recurse from_ to_ self memo
  else
    match declaredProjection types fromDeclared toDeclared with
    | none => some (false, self, memo)
    | some projected =>
        match projectedEdges self.declaredBindings projected to_ from_.indices with
        | none => none
        | some keys => refusedEach recurse keys false self memo

def projectedEdgesRefused (fromDeclared : TypeId) (from_ : KnownShapeBindingRange)
    (toDeclared : TypeId) (to_ : KnownShapeBindingRange) : NumericConstructionState →
    ShapePairMemo → PairAnswer :=
  memoised (.projection fromDeclared from_ toDeclared to_)
    (projectedEdgesRefusedWalk recurse types fromDeclared from_ toDeclared to_)

/-- The check of an open pattern with a node. -/
def refusedPatternNode (pattern : TypeId) (peer : KnownShapeBindingRange)
    (self : NumericConstructionState) (memo : ShapePairMemo) : KnownShape → PairAnswer
  | .Concrete _ _ => some (false, self, memo)
  | .Numeric _ => some (false, self, memo)
  | .Collection element fixedCapacity =>
      match types.collectionShape pattern with
      | none => some (false, self, memo)
      | some collection =>
          if collection.fixedCapacity = fixedCapacity then
            refusedEach recurse [.pattern collection.elementType peer element] false self memo
          else some (false, self, memo)
  | .Map key value =>
      match types.mapShape pattern with
      | none => some (false, self, memo)
      | some map =>
          refusedEither recurse (.pattern map.keyType peer key)
            (.pattern map.valueType peer value) self memo
  | .Optional inner =>
      match types.optionInnerType pattern with
      | none => some (false, self, memo)
      | some innerPattern => refusedEach recurse [.pattern innerPattern peer inner] false self memo
  | .DeclaredSubstitution declaredTypeId start end_ =>
      recurse (.projection declaredTypeId ⟨start, end_⟩ pattern peer) self memo

def patternShapesRefusedWalk (pattern : TypeId) (peer : KnownShapeBindingRange) (shape : Nat)
    (self : NumericConstructionState) (memo : ShapePairMemo) : PairAnswer :=
  match types.parameter pattern with
  | some parameter =>
      match self.declaredBindingShape peer parameter with
      | none => none
      | some none => some (false, self, memo)
      | some (some peerShape) => recurse (.pair shape peerShape) self memo
  | none =>
      if types.containsGenericParameter pattern = false then some (false, self, memo)
      else
        match self.shapes[shape]? with
        | none => none
        | some node => refusedPatternNode recurse types pattern peer self memo node

def patternShapesRefused (pattern : TypeId) (peer : KnownShapeBindingRange) (shape : Nat) :
    NumericConstructionState → ShapePairMemo → PairAnswer :=
  memoised (.pattern pattern peer shape)
    (patternShapesRefusedWalk recurse types pattern peer shape)

end Refused

/-- The mutual recursion of the check, one level for each unit of fuel. -/
def refusedWalk (types : TypeStore) :
    Nat → ShapePairKey → NumericConstructionState → ShapePairMemo → PairAnswer
  | 0, _, _, _ => none
  | fuel + 1, .pair left right, self, memo =>
      shapesJoinRefusedInner (refusedWalk types fuel) left right self memo
  | fuel + 1, .pattern pattern peer shape, self, memo =>
      patternShapesRefused (refusedWalk types fuel) types pattern peer shape self memo
  | fuel + 1, .projection fromDeclared from_ toDeclared to_, self, memo =>
      projectedEdgesRefused (refusedWalk types fuel) types fromDeclared from_ toDeclared to_ self
        memo

def shapesJoinRefused (types : TypeStore) (left right : Nat) (self : NumericConstructionState) :
    Option (Bool × NumericConstructionState) :=
  (refusedWalk types self.walkFuel (.pair left right) self .new).map fun answer =>
    (answer.1, answer.2.1)

end Moth.Ast.NumericConstruction
