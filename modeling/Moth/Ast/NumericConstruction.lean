import Moth.Datatypes.TypeStore
import Moth.Source.Span
import Mathlib.Data.List.Sort
import Mathlib.Data.Prod.Lex

/-!
# Numeric origin classes

The class table and the forward producer registry of
`ast/numeric_construction.rs`: the numeric origins of one body, the equalities
between them, and the facts that each equality class collects for its members
on its root row.

A table is addressed by the ids it handed out. An id that it did not is a
panic of the source, `none` here, and a `Result` of the source is an `Except`
beside the state it leaves. A `BinaryHeap` of reversed ids is a sorted list:
its head is what `peek` answers. Of a retained fragment only the destination
that the registry rewrites stands in its row.
-/

namespace Moth.Ast.NumericConstruction

open Moth.Datatypes Moth.Lexical Moth.Source

inductive NumericFamily where
  | Whole
  | Decimal
deriving DecidableEq

namespace NumericFamily

def merge : NumericFamily → NumericFamily → NumericFamily
  | .Whole, .Whole => .Whole
  | _, _ => .Decimal

def defaultTypeId : NumericFamily → TypeId
  | .Whole => fixedScalarTypeId .I32
  | .Decimal => fixedScalarTypeId .F64

end NumericFamily

/-- How strongly an origin pins its family, the weakest first. -/
inductive NumericPin where
  | Unpinned
  | Bound
  | LoopItem
deriving DecidableEq

namespace NumericPin

def strength : NumericPin → Nat
  | .Unpinned => 0
  | .Bound => 1
  | .LoopItem => 2

def max (self other : NumericPin) : NumericPin :=
  if self.strength ≤ other.strength then other else self

end NumericPin

structure ReceiverWitness where
  typeId : TypeId
  span : Option SourceSpan
  authoredOrder : Nat
deriving DecidableEq

/-- What receivers are compared by: authored order, then type. -/
def ReceiverWitness.key (witness : ReceiverWitness) : Nat ×ₗ Nat :=
  toLex (witness.authoredOrder, witness.typeId.index)

/-- One origin. A row that is not a root keeps only its link. -/
structure ClassRow where
  parent : Nat
  rank : Nat
  firstReceiver : Option ReceiverWitness
  differingReceiver : Option ReceiverWitness
  family : Option NumericFamily
  pin : NumericPin
  loopIneligibleReceiver : Option ReceiverWitness
  forward : Bool
  forwardProducers : List Nat

def retainEarliestReceiver (summary : Option ReceiverWitness) (witness : ReceiverWitness) :
    Option ReceiverWitness :=
  match summary with
  | some existing => if existing.key ≤ witness.key then some existing else some witness
  | none => some witness

def ClassRow.insertReceiver (self : ClassRow) (witness : ReceiverWitness) : ClassRow :=
  match self.firstReceiver with
  | none => { self with firstReceiver := some witness }
  | some first =>
      if witness.typeId = first.typeId then
        if witness.key < first.key then { self with firstReceiver := some witness } else self
      else if witness.key < first.key then
        { self with firstReceiver := some witness, differingReceiver := some first }
      else
        { self with differingReceiver := retainEarliestReceiver self.differingReceiver witness }

/-! ## Shapes and producers -/

inductive KnownShape where
  | Concrete (typeId : TypeId) (span : Option SourceSpan)
  | Numeric (class_ : Nat)
  | Collection (element : Nat) (fixedCapacity : Option Nat)
  | Map (key value : Nat)
  | Optional (inner : Nat)
  | DeclaredSubstitution (declaredTypeId : TypeId) (start end_ : Nat)
deriving DecidableEq

structure KnownShapeBinding where
  parameter : GenericParameterId
  shape : Nat
deriving DecidableEq

inductive ExpectedType where
  | Known (typeId : TypeId)
  | NumericLiteral (typeId : TypeId)
  | Infer
deriving DecidableEq

structure DeferredNumericExpression where
  expected : ExpectedType
deriving DecidableEq

inductive ForwardProducerState where
  | Pending (fragment : DeferredNumericExpression)
  | Resolving
  | Completed (expression : Nat)
  | Taken
deriving DecidableEq

def ForwardProducerState.isPending : ForwardProducerState → Bool
  | .Pending _ => true
  | _ => false

structure ForwardProducer where
  class_ : Nat
  shape : Nat
  authoredOrder : Nat
  state : ForwardProducerState

/-- A broken construction invariant. -/
inductive InfrastructureFailure where
  | Released
  | CapacityExhausted
  | ForeignProducer
  | CompletedUnclaimed
deriving DecidableEq

/-- The receivers that merging those of a class fails on. -/
inductive ReceiverConflict where
  | LoopIneligible (expected : TypeId) (offender : ReceiverWitness)
  | Conflicting (first second : ReceiverWitness)
deriving DecidableEq

structure NumericConstructionState where
  classes : List ClassRow
  shapes : List KnownShape
  shapeAuthoredOrder : List Nat
  nextAuthoredOrder : Nat
  forwardProducers : List ForwardProducer
  declaredBindings : List KnownShapeBinding
  released : Bool

namespace NumericConstructionState

def new : NumericConstructionState := ⟨[], [], [], 0, [], [], false⟩

variable (self : NumericConstructionState)

def ensureLive : Except InfrastructureFailure Unit :=
  if self.released then .error .Released else .ok ()

def takeAuthoredOrder : Nat × NumericConstructionState :=
  (self.nextAuthoredOrder, { self with nextAuthoredOrder := self.nextAuthoredOrder + 1 })

end NumericConstructionState

/-- The 32-bit dense id of the next row of a table. -/
def checkedDenseId (length : Nat) : Except InfrastructureFailure Nat :=
  if length < 2 ^ 32 then .ok length else .error .CapacityExhausted

namespace NumericConstructionState

variable (self : NumericConstructionState)

/-! ## Shape nodes -/

def internOrderedShape (shape : KnownShape) (authoredOrder : Nat) :
    Except InfrastructureFailure Nat × NumericConstructionState :=
  match self.ensureLive, checkedDenseId self.shapes.length with
  | .error failure, _ => (.error failure, self)
  | _, .error failure => (.error failure, self)
  | .ok _, .ok id =>
      (.ok id, { self with
        shapes := self.shapes ++ [shape]
        shapeAuthoredOrder := self.shapeAuthoredOrder ++ [authoredOrder] })

/-- The edges go in by parameter, and the node takes the earliest order of its children. -/
def internDeclaredSubstitution (declaredTypeId : TypeId) (edges : List KnownShapeBinding) :
    Option (Except InfrastructureFailure Nat × NumericConstructionState) :=
  match self.ensureLive, checkedDenseId self.shapes.length,
      checkedDenseId self.declaredBindings.length,
      checkedDenseId (self.declaredBindings.length + edges.length) with
  | .error failure, _, _, _ => some (.error failure, self)
  | _, .error failure, _, _ => some (.error failure, self)
  | _, _, .error failure, _ => some (.error failure, self)
  | _, _, _, .error failure => some (.error failure, self)
  | .ok _, .ok id, .ok start, .ok end_ => do
      let orders ← edges.mapM fun edge => self.shapeAuthoredOrder[edge.shape]?
      let sorted := edges.insertionSort fun a b => a.parameter.index ≤ b.parameter.index
      return (.ok id, { self with
        declaredBindings := self.declaredBindings ++ sorted
        shapes := self.shapes ++ [.DeclaredSubstitution declaredTypeId start end_]
        shapeAuthoredOrder := self.shapeAuthoredOrder ++ [orders.min?.getD 0] })

/-! ## Origins and equalities -/

def createClass : Except InfrastructureFailure Nat × NumericConstructionState :=
  match self.ensureLive, checkedDenseId self.classes.length with
  | .error failure, _ => (.error failure, self)
  | _, .error failure => (.error failure, self)
  | .ok _, .ok id =>
      (.ok id, { self with
        classes := self.classes ++ [⟨id, 0, none, none, none, .Unpinned, none, false, []⟩] })

/-- The climb to the root, which points every other row it passes at its grandparent. -/
def findRootFrom : Nat → List ClassRow → Nat → Option (Nat × List ClassRow)
  | 0, _, _ => none
  | fuel + 1, classes, current => do
      let row ← classes[current]?
      if row.parent = current then return (current, classes)
      let parentRow ← classes[row.parent]?
      findRootFrom fuel (classes.set current { row with parent := parentRow.parent })
        parentRow.parent

def findRoot (class_ : Nat) : Option (Nat × NumericConstructionState) := do
  let (root, classes) ← findRootFrom self.classes.length self.classes class_
  return (root, { self with classes })

/-- The climb of a shared borrow, which changes no row. -/
def walkToRoot (classes : List ClassRow) : Nat → Nat → Option Nat
  | 0, _ => none
  | fuel + 1, current => do
      let row ← classes[current]?
      if row.parent = current then return current
      walkToRoot classes fuel row.parent

/-- Changes the row of one class. -/
def updateRow (class_ : Nat) (f : ClassRow → ClassRow) : Option NumericConstructionState := do
  let row ← self.classes[class_]?
  return { self with classes := self.classes.set class_ (f row) }

/-- Changes the row of the root of one class. -/
def updateRoot (class_ : Nat) (f : ClassRow → ClassRow) : Option NumericConstructionState := do
  let (root, self) ← self.findRoot class_
  self.updateRow root f

/-- Reads the row of the root of one class. -/
def readRoot {α : Type} (class_ : Nat) (f : ClassRow → α) :
    Option (α × NumericConstructionState) := do
  let (root, self) ← self.findRoot class_
  let row ← self.classes[root]?
  return (f row, self)

def classesShareRoot (left right : Nat) : Option (Bool × NumericConstructionState) := do
  let (leftRoot, self) ← self.findRoot left
  let (rightRoot, self) ← self.findRoot right
  return (leftRoot == rightRoot, self)

end NumericConstructionState

def mergeFamilies : Option NumericFamily → Option NumericFamily → Option NumericFamily
  | some winnerFamily, some loserFamily => some (winnerFamily.merge loserFamily)
  | family, none => family
  | none, family => family

def retainEarlierReceiver (summary other : Option ReceiverWitness) : Option ReceiverWitness :=
  match other with
  | some witness => retainEarliestReceiver summary witness
  | none => summary

/-- What the row of the surviving root takes from the row linked below it. -/
def ClassRow.absorb (winner loser : ClassRow) : ClassRow :=
  let receiving := (loser.firstReceiver.toList ++ loser.differingReceiver.toList).foldl
    ClassRow.insertReceiver winner
  { receiving with
    family := mergeFamilies receiving.family loser.family
    pin := receiving.pin.max loser.pin
    loopIneligibleReceiver :=
      retainEarlierReceiver receiving.loopIneligibleReceiver loser.loopIneligibleReceiver
    forward := receiving.forward || loser.forward
    forwardProducers := receiving.forwardProducers.merge loser.forwardProducers }

/-- What is left of a row that another took over. -/
def ClassRow.linkedBelow (loser : ClassRow) (winner : Nat) : ClassRow :=
  { loser with
    parent := winner
    firstReceiver := none
    differingReceiver := none
    loopIneligibleReceiver := none
    forwardProducers := [] }

/-- A rank is an octet, and its overflow a panic. -/
def ClassRow.raiseRank (winner loser : ClassRow) : Option ClassRow :=
  if winner.rank = loser.rank then
    if winner.rank + 1 < 2 ^ 8 then some { winner with rank := winner.rank + 1 } else none
  else some winner

/-- The family of an origin that one more leaf was noted on. -/
def joinFamily (family : Option NumericFamily) (noted : NumericFamily) : Option NumericFamily :=
  match family with
  | some existing => some (existing.merge noted)
  | none => some noted

/-- The pin that an origin of this family takes, if any. -/
def admittedPin : NumericPin → Option NumericFamily → Option NumericPin
  | .Bound, some _ => some .Bound
  | .LoopItem, some .Decimal => some .Bound
  | .LoopItem, some .Whole => some .LoopItem
  | _, _ => none

/-- The row of an origin pinned once more. -/
def ClassRow.raisePin (row : ClassRow) (pin : NumericPin) : ClassRow :=
  match admittedPin pin row.family with
  | some pin => { row with pin := row.pin.max pin }
  | none => row

/-- The family that the receivers of a root row must be of. -/
def ClassRow.pinnedFamily (row : ClassRow) : Option NumericFamily :=
  match row.pin with
  | .Unpinned => none
  | .Bound => row.family
  | .LoopItem => some .Whole

/-- The one type of the receivers of a root row, or the receivers in conflict. -/
def ClassRow.mergedReceiverType (row : ClassRow) : Except ReceiverConflict (Option TypeId) :=
  match row.pin, row.loopIneligibleReceiver with
  | .LoopItem, some offender =>
      .error (.LoopIneligible NumericFamily.Whole.defaultTypeId offender)
  | _, _ =>
      match row.firstReceiver with
      | none => .ok none
      | some first =>
          match row.differingReceiver with
          | some witness => .error (.Conflicting first witness)
          | none => .ok (some first.typeId)

def familyReceivesRecipe (family : Option NumericFamily) (typeId : TypeId)
    (environment : TypeEnvironment) : Bool :=
  match family with
  | none => true
  | some family =>
      match environment.fixedScalar typeId with
      | none => false
      | some scalar =>
          match family with
          | .Whole =>
              scalar.scalarClass == .SignedInteger || scalar.scalarClass == .UnsignedInteger
          | .Decimal => scalar.scalarClass == .BinaryFloat

namespace NumericConstructionState

variable (self : NumericConstructionState)

def unionClasses (left right : Nat) : Option (Nat × NumericConstructionState) := do
  let (leftRoot, self) ← self.findRoot left
  let (rightRoot, self) ← self.findRoot right
  if leftRoot = rightRoot then return (leftRoot, self)
  let leftRow ← self.classes[leftRoot]?
  let rightRow ← self.classes[rightRoot]?
  let (winner, loser, winnerRow, loserRow) :=
    if rightRow.rank ≤ leftRow.rank then (leftRoot, rightRoot, leftRow, rightRow)
    else (rightRoot, leftRoot, rightRow, leftRow)
  let raised ← (winnerRow.absorb loserRow).raiseRank loserRow
  return (winner, { self with
    classes := (self.classes.set winner raised).set loser (loserRow.linkedBelow winner) })

/-! ## Receivers, families and pins -/

def addOrderedReceiverWitness (class_ : Nat) (typeId : TypeId) (span : Option SourceSpan)
    (authoredOrder : Nat) (environment : TypeEnvironment) : Option NumericConstructionState :=
  let witness : ReceiverWitness := ⟨typeId, span, authoredOrder⟩
  self.updateRoot class_ fun row =>
    let row := row.insertReceiver witness
    if familyReceivesRecipe (some .Whole) typeId environment then row
    else
      { row with
        loopIneligibleReceiver := retainEarliestReceiver row.loopIneligibleReceiver witness }

def refuseOrderedPinnedPeer (class_ : Nat) (typeId : TypeId) (span : Option SourceSpan)
    (authoredOrder : Nat) : Option NumericConstructionState :=
  self.updateRoot class_ fun row =>
    { row with
      loopIneligibleReceiver :=
        retainEarliestReceiver row.loopIneligibleReceiver ⟨typeId, span, authoredOrder⟩ }

def firstReceiverType (class_ : Nat) : Option (Option TypeId) := do
  let root ← walkToRoot self.classes self.classes.length class_
  let row ← self.classes[root]?
  return row.firstReceiver.map (·.typeId)

def firstReceiverWitness (class_ : Nat) :
    Option (Option ReceiverWitness × NumericConstructionState) :=
  self.readRoot class_ fun row => row.firstReceiver

def noteClassFamily (class_ : Nat) (family : NumericFamily) : Option NumericConstructionState :=
  self.updateRoot class_ fun row => { row with family := joinFamily row.family family }

def classFamily (class_ : Nat) : Option (NumericFamily × NumericConstructionState) :=
  self.readRoot class_ fun row => row.family.getD .Whole

def pinNumericOrigin (class_ : Nat) (pin : NumericPin) : Option NumericConstructionState :=
  self.updateRoot class_ fun row => row.raisePin pin

def classPinnedFamily (class_ : Nat) :
    Option (Option NumericFamily × NumericConstructionState) :=
  self.readRoot class_ fun row => row.pinnedFamily

def classFamilyIsDecimal (class_ : Nat) : Option (Bool × NumericConstructionState) :=
  self.readRoot class_ fun row => row.family == some .Decimal

/-- Marks the row of the class itself. It is called on the class just created. -/
def markForward (class_ : Nat) : Option NumericConstructionState :=
  self.updateRow class_ fun row => { row with forward := true }

def classIsForward (class_ : Nat) : Option Bool := do
  let root ← walkToRoot self.classes self.classes.length class_
  let row ← self.classes[root]?
  return row.forward

def mergedReceiverType (class_ : Nat) :
    Option (Except ReceiverConflict (Option TypeId) × NumericConstructionState) :=
  self.readRoot class_ fun row => row.mergedReceiverType

/-! ## Forward producers -/

def registerForwardProducer (class_ shape : Nat) (fragment : DeferredNumericExpression) :
    Option (Except InfrastructureFailure Nat × NumericConstructionState) :=
  match self.ensureLive, checkedDenseId self.forwardProducers.length with
  | .error failure, _ => some (.error failure, self)
  | _, .error failure => some (.error failure, self)
  | .ok _, .ok id => do
      let (authoredOrder, self) := self.takeAuthoredOrder
      let self : NumericConstructionState := { self with
        forwardProducers :=
          self.forwardProducers ++ [⟨class_, shape, authoredOrder, .Pending fragment⟩] }
      let self ← self.updateRoot class_ fun row =>
        { row with forwardProducers := row.forwardProducers.orderedInsert (· ≤ ·) id }
      return (.ok id, self)

/-- Puts the row of one producer back with another state. -/
def setProducerState (producer : Nat) (row : ForwardProducer) (state : ForwardProducerState) :
    NumericConstructionState :=
  { self with forwardProducers := self.forwardProducers.set producer { row with state } }

/-- Gives the pending producers of a range that share the root of `class_` their destination. -/
def setPendingForwardDestinationsFrom (root : Nat) (destination : ExpectedType) :
    List Nat → NumericConstructionState → Option NumericConstructionState
  | [], self => some self
  | index :: rest, self =>
      match self.forwardProducers[index]? with
      | none => setPendingForwardDestinationsFrom root destination rest self
      | some producer => do
          let (producerRoot, self) ← self.findRoot producer.class_
          if producerRoot ≠ root then
            setPendingForwardDestinationsFrom root destination rest self
          else
            match producer.state with
            | .Pending _ =>
                setPendingForwardDestinationsFrom root destination rest
                  (self.setProducerState index producer (.Pending ⟨destination⟩))
            | _ => setPendingForwardDestinationsFrom root destination rest self

def setPendingForwardDestinations (class_ : Nat) (destination : ExpectedType)
    (start end_ : Nat) : Option NumericConstructionState := do
  let (root, self) ← self.findRoot class_
  setPendingForwardDestinationsFrom root destination (List.range' start (end_ - start)) self

/-- Drops the producers at the head of an index that are no longer pending. -/
def popSettled (producers : List ForwardProducer) : List Nat → Option (List Nat)
  | [] => some []
  | index :: rest => do
      let producer ← producers[index]?
      if producer.state.isPending then return index :: rest
      popSettled producers rest

def pendingForwardProducerForClass (class_ : Nat) :
    Option (Option Nat × NumericConstructionState) := do
  let (root, self) ← self.findRoot class_
  let row ← self.classes[root]?
  let left ← popSettled self.forwardProducers row.forwardProducers
  let self ← self.updateRow root fun row => { row with forwardProducers := left }
  return (left.head?, self)

/-- The lower of two producers, where both sides have one. -/
def lowerProducer : Option Nat → Option Nat → Option Nat
  | some key, some value => some (if key ≤ value then key else value)
  | key, value => key.or value

/-- The loop over the bindings of a declared substitution, the walk of one node given. -/
def nextPendingAmongBindings
    (walk : NumericConstructionState → Nat → List (Nat × Option Nat) →
      Option (Option Nat × NumericConstructionState × List (Nat × Option Nat))) :
    List Nat → NumericConstructionState → Option Nat → List (Nat × Option Nat) →
      Option (Option Nat × NumericConstructionState × List (Nat × Option Nat))
  | [], self, first, memo => some (first, self, memo)
  | index :: rest, self, first, memo => do
      let edge ← self.declaredBindings[index]?
      let (next, self, memo) ← walk self edge.shape memo
      nextPendingAmongBindings walk rest self (lowerProducer first next) memo

/-- The walk below one node, the walk of its children given. -/
def nextPendingOfNode
    (walk : NumericConstructionState → Nat → List (Nat × Option Nat) →
      Option (Option Nat × NumericConstructionState × List (Nat × Option Nat)))
    (self : NumericConstructionState) (memo : List (Nat × Option Nat)) :
    KnownShape → Option (Option Nat × NumericConstructionState × List (Nat × Option Nat))
  | .Concrete _ _ => some (none, self, memo)
  | .Numeric class_ => do
      let (next, self) ← self.pendingForwardProducerForClass class_
      return (next, self, memo)
  | .Collection element _ => walk self element memo
  | .Map key value => do
      let (key, self, memo) ← walk self key memo
      let (value, self, memo) ← walk self value memo
      return (lowerProducer key value, self, memo)
  | .Optional inner => walk self inner memo
  | .DeclaredSubstitution _ start end_ =>
      nextPendingAmongBindings walk (List.range' start (end_ - start)) self none memo

/-- The walk of one demand, which answers a shape it met before from `memo`. -/
def nextPendingForwardProducerInner :
    Nat → NumericConstructionState → Nat → List (Nat × Option Nat) →
      Option (Option Nat × NumericConstructionState × List (Nat × Option Nat))
  | 0, _, _, _ => none
  | fuel + 1, self, shape, memo =>
      match memo.lookup shape with
      | some next => some (next, self, memo)
      | none => do
          let node ← self.shapes[shape]?
          let (next, self, memo) ←
            nextPendingOfNode (nextPendingForwardProducerInner fuel) self memo node
          return (next, self, (shape, next) :: memo)

def nextPendingForwardProducer (shape : Nat) :
    Option (Option Nat × NumericConstructionState) := do
  match ← self.shapes[shape]? with
  | .Concrete _ _ => return (none, self)
  | .Numeric class_ => self.pendingForwardProducerForClass class_
  | _ =>
      let (next, self, _) ←
        nextPendingForwardProducerInner self.shapes.length self shape []
      return (next, self)

/-! ## Producer states -/

def claimPendingForwardProducer (producer : Nat) :
    Except InfrastructureFailure (Option (Nat × DeferredNumericExpression)) ×
      NumericConstructionState :=
  match self.forwardProducers[producer]? with
  | none => (.error .ForeignProducer, self)
  | some row =>
      match row.state with
      | .Pending fragment =>
          (.ok (some (row.shape, fragment)), self.setProducerState producer row .Resolving)
      | _ => (.ok none, self)

def completeForwardProducer (producer expression : Nat) :
    Except InfrastructureFailure Unit × NumericConstructionState :=
  match self.forwardProducers[producer]? with
  | none => (.error .ForeignProducer, self)
  | some row =>
      match row.state with
      | .Resolving => (.ok (), self.setProducerState producer row (.Completed expression))
      | _ => (.error .CompletedUnclaimed, self)

def takeCompletedForwardProducer (producer : Nat) :
    Except InfrastructureFailure (Option Nat) × NumericConstructionState :=
  match self.forwardProducers[producer]? with
  | none => (.error .ForeignProducer, self)
  | some row =>
      match row.state with
      | .Completed expression => (.ok (some expression), self.setProducerState producer row .Taken)
      | _ => (.ok none, self)

end NumericConstructionState

end Moth.Ast.NumericConstruction
